import ColorWords.Standard
import ColorWords.Proofs.Agreement
import ColorWords.Proofs.Exchange
import ColorWords.Proofs.Frame
import ColorWords.Proofs.Loading
import ColorWords.Proofs.RoundTrip
import ColorWords.Proofs.Visibility

/-! # Colors are stored words

Some operations mask the word that they make and others put it together from bytes. All
of them leave the lowest alpha bit clear, whatever words and singles they are given, so a
color is known by its four stored bytes.
-/
namespace ColorWords
open Layout

namespace Color
variable {s : Space} {c d : Color s}

/-! ## Constructors -/

/-- A word is stored if its alpha byte is even. -/
theorem stored_of_alpha {a : UInt32} (h : byteAt c.bits alphaShift = a &&& opaqueByte) : c.Stored := by
  rw [stored_iff, alphaByte, alphaByte_eq, h, UInt32.and_assoc, UInt32.and_self]

theorem stored_ofChannels (v : Channels) (alpha : Float32) : (ofChannels v alpha : Color s).Stored :=
  stored_of_alpha (byteAt_pack v alpha).2.2.2

theorem byteAt_packAlpha (alpha : Float32) :
    byteAt (packAlpha alpha) alphaShift = byteAt (pack ⟨0, 0, 0⟩ alpha) alphaShift &&& opaqueByte := by
  have hmask : byteAt alphaMask alphaShift = opaqueByte := by decide
  rw [packAlpha, byteAt_and, hmask]

/-- Color bytes next to a packed alpha. -/
theorem stored_or_packAlpha {w : UInt32} (h : byteAt w alphaShift = 0) (alpha : Float32) :
    (⟨w ||| packAlpha alpha⟩ : Color s).Stored ∧ (⟨packAlpha alpha ||| w⟩ : Color s).Stored := by
  constructor
  · exact stored_of_alpha (by rw [byteAt_or, h, UInt32.zero_or, byteAt_packAlpha])
  · exact stored_of_alpha (by rw [byteAt_or, h, UInt32.or_zero, byteAt_packAlpha])

theorem stored_ipt_ofSrgb (v : Channels) (alpha : Float32) : (Ipt.ofSrgb v alpha).Stored :=
  stored_of_alpha ((Ipt.byteAt_ofSrgb_alpha v alpha).trans (byteAt_packAlpha alpha))

theorem stored_ipt_ofHsl (v : Model.Hsl) (alpha : Float32) : (Ipt.ofHsl v alpha).Stored := by
  rw [Ipt.ofHsl]
  split
  case isTrue => exact (stored_or_packAlpha (by decide) alpha).2
  case isFalse => exact stored_ipt_ofSrgb _ _

theorem stored_ofLab (v : Channels) (alpha : Float32) : (Oklab.ofLab v alpha).Stored :=
  (stored_or_packAlpha (byteAt_opponentWord_alpha v) alpha).1

theorem stored_ofRgba (rgba : UInt32) : (ofRgba rgba : Color s).Stored := stored_of_alpha (byteAt_ofRgba_alpha rgba)

/-! ## Edits and mixtures -/

theorem stored_toOklab (h : c.Stored) : c.toOklab.Stored := by
  cases s with
  | rgb => exact stored_ofRgba _
  | ipt => exact stored_ofRgba _
  | oklab => exact h

theorem stored_lighten (c : Color s) (change : Float32) : (c.lighten change).Stored := by
  cases s <;> exact stored_setByte _ _ _

theorem stored_darken (c : Color s) (change : Float32) : (c.darken change).Stored := by
  cases s <;> exact stored_setByte _ _ _

theorem stored_towardGray (c : Ipt) (fraction : Float32) : (c.towardGray fraction).Stored :=
  stored_of_alpha (byteAt_lerp (by decide) _ _ _)

theorem stored_contrasting {c : Ipt} (h : c.Stored) (background : Ipt) : (c.contrasting background).Stored := by
  rw [Ipt.contrasting]
  split
  case isTrue => exact h
  case isFalse => exact stored_setByte _ _ _

theorem stored_edited (c : Ipt) (hue saturation intensity opacity : Float32) :
    (c.edited hue saturation intensity opacity).Stored := by
  simp only [Ipt.edited]
  split
  case isTrue => exact (stored_or_packAlpha (by decide) _).2
  case isFalse => exact stored_ipt_ofSrgb _ _

theorem stored_move {up down : Color s → Float32 → Color s} (hup : ∀ c change, (up c change).Stored)
    (hdown : ∀ c change, (down c change).Stored) (change : Float32) (h : c.Stored) :
    (Adjustment.move up down change c).Stored := by
  unfold Adjustment.move
  split_ifs
  · exact hup _ _
  · exact hdown _ _
  · exact h

theorem stored_apply (a : Adjustment) (h : c.Stored) : (a.apply c).Stored :=
  stored_move stored_enrich stored_dullen _ (stored_move stored_lighten stored_darken _ h)

end Color

/-! ## Tables -/

section Tables
variable {s : Space} {t : Table s} {b : Builder s}

def Builder.Stored (b : Builder s) : Prop := ∀ e ∈ b.entries, e.2.Stored

structure Table.Stored (t : Table s) : Prop where
  entries : ∀ e ∈ t.entries, e.2.Stored
  aliases : ∀ e ∈ t.aliases, e.2.Stored

theorem Builder.Stored.build (h : b.Stored) : b.build.Stored := by
  have hentries : ∀ e ∈ b.build.entries, e.2.Stored := by
    intro e he
    have hlast : e ∈ b.lastEntries := (Entries.sortBy_perm b.lastEntries fun _ => []).mem_iff.mp he
    exact h e ((Entries.mem_putAll hlast).resolve_left List.not_mem_nil)
  refine ⟨hentries, fun e he => ?_⟩
  obtain ⟨name, hname⟩ := b.resolved_build.colors e he
  exact hentries (name, e.2) hname

theorem Table.Stored.get? (h : t.Stored) {name : String} {c : Color s} (hc : t.get? name = some c) : c.Stored := by
  rcases Option.or_eq_some_iff.mp hc with hentry | ⟨-, halias⟩
  · exact h.entries _ (Entries.mem_of_lookup hentry)
  · exact h.aliases _ (Entries.mem_of_lookup halias)

theorem Table.Stored.lookup (h : t.Stored) (name : String) : (t.lookup name).Stored := by
  rw [Table.lookup]
  cases hc : t.get? name with
  | none => exact Color.stored_transparent
  | some c => exact h.get? hc

theorem Table.Stored.colorsByHue (h : t.Stored) : ∀ e ∈ t.colorsByHue, e.2.Stored :=
  fun e he => h.entries e (Table.mem_colorsByHue.mp he).1

/-- A declared color is converted from an exchange word. -/
theorem Builder.Stored.declare (h : b.Stored) {content : List Char} {d : Palette.Declaration s}
    (hd : Palette.declaration content = .ok d) : (Palette.declare b d).Stored := by
  unfold Palette.declaration at hd
  split at hd
  case h_1 => cases hd
  case h_2 =>
    obtain rfl := Except.ok.inj hd
    exact h
  case h_3 name literal _ =>
    split at hd
    case h_1 => cases hd
    case h_2 =>
      obtain rfl := Except.ok.inj hd
      exact List.forall_mem_append.mpr ⟨h, List.forall_mem_singleton.mpr (Color.stored_ofRgba _)⟩

theorem Builder.Stored.readSound (h : b.Stored) (lines : List (ℕ × List Char)) : (Palette.readSound b lines).Stored := by
  induction lines generalizing b with
  | nil => exact h
  | cons line rest ih =>
    unfold Palette.readSound
    split
    case h_1 => exact ih h
    case h_2 d hd => exact ih (h.declare hd)

theorem Table.stored_loadLenient (text : String) : (Palette.loadLenient text : Table s).Stored := by
  have hempty : (Builder.empty : Builder s).Stored := fun e he => by cases he
  exact (hempty.readSound _).build

theorem Table.stored_standard {color : StandardColor → Color s} (h : ∀ c, (color c).Stored) :
    (Table.standard color).Stored := by
  refine Builder.Stored.build fun e he => ?_
  obtain ⟨c, -, rfl⟩ := List.mem_map.mp he
  exact h c

theorem Table.stored_builtin (s : Space) : (Table.builtin s).Stored := by
  cases s with
  | rgb => exact stored_standard fun _ => Color.stored_ofBits _
  | ipt => exact stored_standard fun _ => Color.stored_ofRgba _
  | oklab => exact stored_standard fun _ => Color.stored_ofBits _

inductive Table.BuiltFrom (colors : List (Color s)) : Table s → Prop where
  | build (b : Builder s) (hcolors : ∀ e ∈ b.entries, e.2 ∈ colors) : BuiltFrom colors b.build
  | tryBuild (b : Builder s) (hcolors : ∀ e ∈ b.entries, e.2 ∈ colors) (t : Table s) (h : b.tryBuild = .ok t) :
    BuiltFrom colors t
  | load (text : String) (t : Table s) (h : Palette.load text = .ok t) : BuiltFrom colors t
  | loadFile (bytes : Option ByteArray) (t : Table s) (h : Palette.loadFile bytes = .ok t) : BuiltFrom colors t
  | loadLenient (text : String) : BuiltFrom colors (Palette.loadLenient text)
  | builtin : BuiltFrom colors (.builtin s)

theorem Table.stored_of_load {text : String} (h : Palette.load text = .ok t) : t.Stored := by
  rw [← (Palette.loadLenient_of_load h).1]
  exact stored_loadLenient text

theorem Table.BuiltFrom.stored {colors : List (Color s)} (h : t.BuiltFrom colors) (hcolors : ∀ c ∈ colors, c.Stored) :
    t.Stored := by
  cases h with
  | build b hb => exact Builder.Stored.build fun e he => hcolors _ (hb e he)
  | tryBuild b hb t ht =>
    rw [Builder.eq_build (.inr ht)]
    exact Builder.Stored.build fun e he => hcolors _ (hb e he)
  | load text t ht => exact stored_of_load ht
  | loadFile bytes t ht =>
    unfold Palette.loadFile at ht
    split at ht
    case h_1 => cases ht
    case h_2 => exact stored_of_load ht
  | loadLenient text => exact stored_loadLenient text
  | builtin => exact stored_builtin s

end Tables

/-! ## Descriptions and searches -/

section Readers
variable {s : Space} {t : Table s}

theorem Description.stored_parseChars (h : t.Stored) (g : Grammar) (text : List Char) : (parseChars t g text).Stored := by
  rw [parseChars, color_foldl_read]
  generalize g.meanings text = meanings
  have hentries : ∀ e ∈ entries t meanings, e.1.Stored := by
    intro e he
    have hnamed : e.1 ∈ named t meanings := by
      rw [← entries_colors]
      exact List.mem_map_of_mem he
    obtain ⟨name, -, hname⟩ := List.mem_map.mp hnamed
    rw [← hname]
    exact h.lookup name
  have hmixture := Color.weightedMix_stored hentries
  simp only [colorOf]
  split_ifs
  · exact Color.stored_transparent
  · exact hmixture
  · exact (Color.stored_apply _ hmixture).intoGamut

theorem Search.stored_candidateColor (q : Search s) {palette : List (Color s)} (h : ∀ c ∈ palette, c.Stored)
    (c : Candidate) : (q.candidateColor palette c).Stored := by
  refine (Color.stored_apply _ (Color.mix_stored fun d hd => ?_)).intoGamut
  obtain ⟨i, -, hi⟩ := List.mem_filterMap.mp hd
  exact h d (List.mem_of_getElem? hi)

/-- The best color is that of a candidate or transparent, however many are tried. -/
theorem Search.stored_best (q : Search s) {palette : List (Color s)} (h : ∀ c ∈ palette, c.Stored)
    (target : Oklab) (limit : ℕ) : (q.best palette target limit).color.Stored := by
  rw [best]
  induction limit with
  | zero => exact Color.stored_transparent
  | succ n ih =>
    rw [List.range_succ, List.foldl_append, List.foldl_cons, List.foldl_nil]
    simp only [improve]
    split
    case isTrue => exact q.stored_candidateColor h _
    case isFalse => exact ih

theorem Search.stored_run (q : Search s) (h : q.table.Stored) (target : Color s) : (q.run target).color.Stored := by
  refine q.stored_best (fun c hc => ?_) _ _
  obtain ⟨e, he, rfl⟩ := List.mem_map.mp hc
  exact h.colorsByHue e he

end Readers
/-! ## Everything together -/

namespace Color

/-- The colors that some operations give one after the other: from words, bytes, singles and texts, and
then from colors that there are already. Every channel is raised and lowered by the same operation, and
standard descriptions are read and searched with the standard table. -/
inductive Obtainable : {s : Space} → Color s → Prop where
  | ofBits {s : Space} (bits : UInt32) : Obtainable (ofBits bits : Color s)
  | ofRgba {s : Space} (rgba : UInt32) : Obtainable (ofRgba rgba : Color s)
  | ofChannels {s : Space} (v : Channels) (alpha : Float32) : Obtainable (ofChannels v alpha : Color s)
  | transparent {s : Space} : Obtainable (transparent : Color s)
  | black : Obtainable black
  | white : Obtainable white
  | ofBytes (r g b a : UInt8) : Obtainable (Rgb.ofBytes r g b a)
  | rgbOfHsl (v : Model.Hsl) (alpha : Float32) : Obtainable (Rgb.ofHsl v alpha)
  | ofHex {text : String} {c : Rgb} (h : Rgb.ofHex text = .ok c) : Obtainable c
  | ofSrgb (v : Channels) (alpha : Float32) : Obtainable (Ipt.ofSrgb v alpha)
  | iptOfHsl (v : Model.Hsl) (alpha : Float32) : Obtainable (Ipt.ofHsl v alpha)
  | ofRgb {c : Rgb} (hc : Obtainable c) : Obtainable (Ipt.ofRgb c)
  | ofLab (v : Channels) (alpha : Float32) : Obtainable (Oklab.ofLab v alpha)
  | toOklab {s : Space} {c : Color s} (hc : Obtainable c) : Obtainable c.toOklab
  | lerp {s : Space} {c d : Color s} (hc : Obtainable c) (hd : Obtainable d) (change : Float32) :
    Obtainable (c.lerp d change)
  | opacify {s : Space} {c : Color s} (hc : Obtainable c) (change : Float32) : Obtainable (c.opacify change)
  | fade {s : Space} {c : Color s} (hc : Obtainable c) (change : Float32) : Obtainable (c.fade change)
  | raise {s : Space} {c : Color s} (hc : Obtainable c) (channel : Channel) (change : Float32) :
    Obtainable (c.raise channel change)
  | lower {s : Space} {c : Color s} (hc : Obtainable c) (channel : Channel) (change : Float32) :
    Obtainable (c.lower channel change)
  | lighten {s : Space} {c : Color s} (hc : Obtainable c) (change : Float32) : Obtainable (c.lighten change)
  | darken {s : Space} {c : Color s} (hc : Obtainable c) (change : Float32) : Obtainable (c.darken change)
  | enrich {s : Space} {c : Color s} (hc : Obtainable c) (change : Float32) : Obtainable (c.enrich change)
  | dullen {s : Space} {c : Color s} (hc : Obtainable c) (change : Float32) : Obtainable (c.dullen change)
  | intoGamut {s : Space} {c : Color s} (hc : Obtainable c) : Obtainable c.intoGamut
  | towardGray {c : Ipt} (hc : Obtainable c) (fraction : Float32) : Obtainable (c.towardGray fraction)
  | contrasting {c background : Ipt} (hc : Obtainable c) (hbackground : Obtainable background) :
    Obtainable (c.contrasting background)
  | edited {c : Ipt} (hc : Obtainable c) (hue saturation intensity opacity : Float32) :
    Obtainable (c.edited hue saturation intensity opacity)
  | apply {s : Space} {c : Color s} (hc : Obtainable c) (a : Adjustment) : Obtainable (a.apply c)
  | mix {s : Space} {colors : List (Color s)} (h : ∀ c ∈ colors, Obtainable c) : Obtainable (mix colors)
  | weightedMix {s : Space} {entries : List (Color s × Float32)} (h : ∀ e ∈ entries, Obtainable e.1) :
    Obtainable (weightedMix entries)
  | get? {s : Space} {colors : List (Color s)} (h : ∀ c ∈ colors, Obtainable c) {t : Table s}
    (ht : t.BuiltFrom colors) {name : String} {c : Color s} (hc : t.get? name = some c) : Obtainable c
  | lookup {s : Space} {colors : List (Color s)} (h : ∀ c ∈ colors, Obtainable c) {t : Table s}
    (ht : t.BuiltFrom colors) (name : String) : Obtainable (t.lookup name)
  | colorsByHue {s : Space} {colors : List (Color s)} (h : ∀ c ∈ colors, Obtainable c) {t : Table s}
    (ht : t.BuiltFrom colors) {e : String × Color s} (he : e ∈ t.colorsByHue) : Obtainable e.2
  | parse {s : Space} {colors : List (Color s)} (h : ∀ c ∈ colors, Obtainable c) {t : Table s}
    (ht : t.BuiltFrom colors) (g : Grammar) (text : String) : Obtainable (Description.parse t g text)
  | parseRange {s : Space} {colors : List (Color s)} (h : ∀ c ∈ colors, Obtainable c) {t : Table s}
    (ht : t.BuiltFrom colors) (g : Grammar) (text : String) (start : ℕ) (length : Option ℕ) :
    Obtainable (Description.parseRange t g text start length)
  | search {s : Space} {colors : List (Color s)} (h : ∀ c ∈ colors, Obtainable c) {t : Table s}
    (ht : t.BuiltFrom colors) (g : Grammar) (mixCount : ℕ) (cap : Option ℕ) {target : Color s}
    (htarget : Obtainable target) : Obtainable ((⟨t, g, mixCount, cap⟩ : Search s).run target).color

/-- No operation sets the lowest alpha bit. -/
theorem Obtainable.stored {s : Space} {c : Color s} (h : Obtainable c) : c.Stored := by
  induction h with
  | ofBits bits => exact stored_ofBits bits
  | ofRgba rgba => exact stored_ofRgba rgba
  | ofChannels v alpha => exact stored_ofChannels v alpha
  | transparent => exact stored_transparent
  | black => decide
  | white => decide
  | ofBytes r g b a => exact Rgb.stored_ofBytes r g b a
  | rgbOfHsl v alpha => exact Rgb.stored_ofBytes _ _ _ _
  | ofHex h => exact Hex.stored_of_ofChars h
  | ofSrgb v alpha => exact stored_ipt_ofSrgb v alpha
  | iptOfHsl v alpha => exact stored_ipt_ofHsl v alpha
  | ofRgb => exact stored_ofRgba _
  | ofLab v alpha => exact stored_ofLab v alpha
  | toOklab _ ih => exact stored_toOklab ih
  | lerp => exact stored_ofBits _
  | opacify => exact stored_ofBits _
  | fade => exact stored_ofBits _
  | raise => exact stored_setByte _ _ _
  | lower => exact stored_setByte _ _ _
  | lighten => exact stored_lighten _ _
  | darken => exact stored_darken _ _
  | enrich => exact stored_enrich _ _
  | dullen => exact stored_dullen _ _
  | intoGamut _ ih => exact ih.intoGamut
  | towardGray => exact stored_towardGray _ _
  | contrasting _ _ ih _ => exact stored_contrasting ih _
  | edited => exact stored_edited _ _ _ _ _
  | apply _ a ih => exact stored_apply a ih
  | mix _ ih => exact mix_stored ih
  | weightedMix _ ih => exact weightedMix_stored ih
  | get? _ ht hc ih => exact (ht.stored ih).get? hc
  | lookup _ ht name ih => exact (ht.stored ih).lookup name
  | colorsByHue _ ht he ih => exact (ht.stored ih).colorsByHue _ he
  | parse _ ht g text ih => exact Description.stored_parseChars (ht.stored ih) g _
  | parseRange _ ht g text start length ih => exact Description.stored_parseChars (ht.stored ih) g _
  | search _ ht g mixCount cap _ ih _ => exact Search.stored_run _ (ht.stored ih) _

/-- Every stored word is a color, and no other word. -/
theorem obtainable_iff {s : Space} {c : Color s} : Obtainable c ↔ c.Stored := by
  refine ⟨Obtainable.stored, fun h => ?_⟩
  have hword := Obtainable.ofBits (s := s) c.bits
  rwa [Color.ofBits, h] at hword

theorem Stored.eq_iff {s : Space} {c d : Color s} (hc : c.Stored) (hd : d.Stored) :
    c = d ↔ (∀ channel, c.byte channel = d.byte channel) ∧ c.alphaByte = d.alphaByte := by
  constructor
  · rintro rfl
    exact ⟨fun _ => rfl, rfl⟩
  · rintro ⟨hchannels, halpha⟩
    refine hc.eq_of_storedByte hd fun shift hshift => ?_
    rw [hc.storedByte_eq, hd.storedByte_eq]
    simp only [byteShifts, List.mem_cons, List.not_mem_nil, or_false] at hshift
    rcases hshift with rfl | rfl | rfl | rfl
    · exact congrArg UInt32.toNat (hchannels .first)
    · exact congrArg UInt32.toNat (hchannels .second)
    · exact congrArg UInt32.toNat (hchannels .third)
    · rw [stored_iff.mp hc, stored_iff.mp hd, halpha]

/-- Whatever operations give, it has no bit that is not stored. So its word gives it back, its four bytes
tell it from other colors, and it is transparent if the alpha byte of its word is zero. -/
theorem Obtainable.stored_word {s : Space} {c d : Color s} (hc : Obtainable c) (hd : Obtainable d) :
    c.bits &&& ~~~storedMask = 0 ∧ Color.ofBits c.bits = c ∧
      (c = d ↔ (∀ channel, c.byte channel = d.byte channel) ∧ c.alphaByte = d.alphaByte) ∧
      (c.isTransparent = true ↔ byteAt c.bits alphaShift = 0) := by
  have hstored : c.bits &&& storedMask = c.bits := hc.stored
  refine ⟨?_, ?_, hc.stored.eq_iff hd.stored, ?_⟩
  · rw [← hstored, UInt32.and_assoc, UInt32.and_not_self, UInt32.and_zero]
  · rw [Color.ofBits, hstored]
  · rw [stored_iff.mp hc.stored, isTransparent, beq_iff_eq]

theorem Obtainable.stored_word_extreme :
    let nan : Float32 := .ofBits 0x7FC00000
    let c : Oklab := ((Ipt.ofSrgb ⟨nan, Single.infinity, -3⟩ 1e30).edited nan Single.infinity (-1) 7).toOklab
    let d : Oklab := Description.parse (Palette.loadLenient "mint #98FB98\nfog #12") .extended "darker fog mint 1e39"
    Obtainable c ∧ Obtainable d ∧ c.bits &&& ~~~storedMask = 0 ∧ Color.ofBits c.bits = c ∧
      (c = d ↔ (∀ channel, c.byte channel = d.byte channel) ∧ c.alphaByte = d.alphaByte) ∧
      (c.isTransparent = true ↔ byteAt c.bits alphaShift = 0) := by
  intro nan c d
  have hc : Obtainable c := ((Obtainable.ofSrgb _ _).edited _ _ _ _).toOklab
  have hd : Obtainable d := .parse (List.forall_mem_nil _) (.loadLenient _) _ _
  exact ⟨hc, hd, hc.stored_word hd⟩

end Color
end ColorWords
