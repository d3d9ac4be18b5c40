import ColorWords.Adjustment
import ColorWords.Color.Basic
import ColorWords.Color.Convert
import ColorWords.Color.Descriptor
import ColorWords.Color.Edit
import ColorWords.Color.Hex
import ColorWords.Color.Mix
import ColorWords.Description
import ColorWords.File
import ColorWords.Gamut
import ColorWords.Grammar
import ColorWords.Journal
import ColorWords.Journal.Install
import ColorWords.Layout
import ColorWords.Model.Hsl
import ColorWords.Model.Ipt
import ColorWords.Model.Oklab
import ColorWords.Palette.Builder
import ColorWords.Palette.Builtin
import ColorWords.Palette.Entries
import ColorWords.Palette.Error
import ColorWords.Palette.Line
import ColorWords.Palette.Load
import ColorWords.Palette.Table
import ColorWords.Search
import ColorWords.Single.Angle
import ColorWords.Single.Basic
import ColorWords.Single.CubeRoot
import ColorWords.Single.Decimal
import ColorWords.Single.Numeral
import ColorWords.Standard
import ColorWords.Text.Blank
import ColorWords.Text.Bytes
import ColorWords.Text.Extending
import ColorWords.Text.Ignorable
import ColorWords.Text.Quoted
import ColorWords.Text.Switches
import ColorWords.Text.Unprintable
import ColorWords.Token
import ColorWords.Wording
import ColorWords.Proofs.Single.Nearest
import ColorWords.Proofs.Single.Denotation
import ColorWords.Proofs.Single.CubeRoot
import ColorWords.Proofs.Single.Order
import ColorWords.Proofs.Single.Whole
import ColorWords.Proofs.Single.Zero
import ColorWords.Proofs.Single.Amount
import ColorWords.Proofs.Single.Infinite
import ColorWords.Proofs.Single.Scaling
import ColorWords.Proofs.Single.Bounds
import ColorWords.Proofs.Single.Around
import ColorWords.Proofs.Single.Floor
import ColorWords.Proofs.Layout
import ColorWords.Proofs.Mixing
import ColorWords.Proofs.Reading
import ColorWords.Proofs.Opponent
import ColorWords.Proofs.Gamut
import ColorWords.Proofs.Candidates
import ColorWords.Proofs.Distance
import ColorWords.Proofs.Search
import ColorWords.Proofs.Entries
import ColorWords.Proofs.Building
import ColorWords.Proofs.Loading
import ColorWords.Proofs.Table
import ColorWords.Proofs.Views
import ColorWords.Proofs.Token
import ColorWords.Proofs.Adjustment
import ColorWords.Proofs.Alpha
import ColorWords.Proofs.Visibility
import ColorWords.Proofs.Agreement
import ColorWords.Proofs.Displayable
import ColorWords.Proofs.Line
import ColorWords.Proofs.Aliases
import ColorWords.Proofs.Levels
import ColorWords.Proofs.NetLevels
import ColorWords.Proofs.Frame
import ColorWords.Proofs.Blank
import ColorWords.Proofs.Exchange
import ColorWords.Proofs.Lines
import ColorWords.Proofs.Printing
import ColorWords.Proofs.Refusal
import ColorWords.Proofs.Faults
import ColorWords.Proofs.Vocabulary
import ColorWords.Proofs.Contraction
import ColorWords.Proofs.Lightness
import ColorWords.Proofs.Rungs
import ColorWords.Proofs.RoundTrip
import ColorWords.Proofs.Ranges
import ColorWords.Proofs.Positions
import ColorWords.Proofs.Runs
import ColorWords.Proofs.Compounds
import ColorWords.Proofs.Stored
import ColorWords.Proofs.Questions
import ColorWords.Proofs.Closeness
import ColorWords.Proofs.Strength
import ColorWords.Proofs.Transition
import ColorWords.Proofs.Dulling
import ColorWords.Proofs.Weights
import ColorWords.Proofs.Proportion
import ColorWords.Proofs.Repetition
import ColorWords.Proofs.Literal
import ColorWords.Proofs.Fates
import ColorWords.Proofs.Cylinder
import ColorWords.Proofs.Hues
import ColorWords.Proofs.Wave
import ColorWords.Proofs.Circle
import ColorWords.Proofs.Recovery
