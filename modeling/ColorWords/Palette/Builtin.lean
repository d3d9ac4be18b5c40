import ColorWords.Palette.Builder

/-!
# Standard colors

Fifty names with their words in RGB and Oklab, and nine aliases. The IPT colors are those of RGB,
converted.
-/
namespace ColorWords

structure StandardColor where
  name : String
  rgb : UInt32
  oklab : UInt32

def standardColors : List StandardColor := [
  ⟨"transparent", 0x00000000, 0x007F7F00⟩,
  ⟨"black", 0xFE000000, 0xFE7F7F00⟩,
  ⟨"gray", 0xFE808080, 0xFE7F80A1⟩,
  ⟨"silver", 0xFEB6B6B6, 0xFE7F80CC⟩,
  ⟨"white", 0xFEFFFFFF, 0xFE7F80FF⟩,
  ⟨"red", 0xFE0000FF, 0xFE909CA0⟩,
  ⟨"orange", 0xFE007FFF, 0xFE938CBE⟩,
  ⟨"yellow", 0xFE00FFFF, 0xFE9976F7⟩,
  ⟨"green", 0xFE00FF00, 0xFE9662DD⟩,
  ⟨"blue", 0xFEFF0000, 0xFE587B73⟩,
  ⟨"indigo", 0xFEE00F52, 0xFE5F8877⟩,
  ⟨"violet", 0xFEEF4090, 0xFE658F96⟩,
  ⟨"purple", 0xFEFF00C0, 0xFE649B9E⟩,
  ⟨"brown", 0xFE3B578F, 0xFE88878B⟩,
  ⟨"pink", 0xFEE0A0FF, 0xFE7A8ED5⟩,
  ⟨"magenta", 0xFEF500F5, 0xFE6AA2AE⟩,
  ⟨"brick", 0xFE4A52D5, 0xFE8992A1⟩,
  ⟨"ember", 0xFE325AF5, 0xFE8E93AE⟩,
  ⟨"salmon", 0xFE6262FF, 0xFE8895B6⟩,
  ⟨"chocolate", 0xFE183868, 0xFE89866B⟩,
  ⟨"tan", 0xFE8CB4D2, 0xFE8781CE⟩,
  ⟨"bronze", 0xFE318ECE, 0xFE9084B7⟩,
  ⟨"cinnamon", 0xFE1D69D2, 0xFE8F8BA7⟩,
  ⟨"apricot", 0xFE28A8FF, 0xFE9385D0⟩,
  ⟨"peach", 0xFE81BFFF, 0xFE8B85DD⟩,
  ⟨"pear", 0xFE30E3D3, 0xFE9576E2⟩,
  ⟨"saffron", 0xFE10D5FF, 0xFE977DE4⟩,
  ⟨"butter", 0xFE88F2FF, 0xFE8F7CF4⟩,
  ⟨"chartreuse", 0xFE41FFC8, 0xFE9571EF⟩,
  ⟨"cactus", 0xFE00A030, 0xFE916BA4⟩,
  ⟨"lime", 0xFE00D393, 0xFE956FCF⟩,
  ⟨"olive", 0xFE008081, 0xFE907A9C⟩,
  ⟨"fern", 0xFE42794E, 0xFE88768F⟩,
  ⟨"moss", 0xFE084620, 0xFE897560⟩,
  ⟨"celery", 0xFE73FF7D, 0xFE8F6BE6⟩,
  ⟨"sage", 0xFEC5E3AB, 0xFE8278E1⟩,
  ⟨"jade", 0xFE3FBF3F, 0xFE8F6BBA⟩,
  ⟨"cyan", 0xFEFFFF00, 0xFE7A6CE7⟩,
  ⟨"mint", 0xFED4FF7F, 0xFE8270EB⟩,
  ⟨"teal", 0xFE7F7F00, 0xFE7C7391⟩,
  ⟨"turquoise", 0xFEC9D62E, 0xFE7D6FCE⟩,
  ⟨"sky", 0xFEE0C010, 0xFE7671C2⟩,
  ⟨"cobalt", 0xFEAB4600, 0xFE6A7B72⟩,
  ⟨"denim", 0xFEB88830, 0xFE74779F⟩,
  ⟨"navy", 0xFE800000, 0xFE667D49⟩,
  ⟨"lavender", 0xFEFF91B9, 0xFE6F89C2⟩,
  ⟨"plum", 0xFEC60DBE, 0xFE6D9C95⟩,
  ⟨"mauve", 0xFEAB73AB, 0xFE788AA9⟩,
  ⟨"rose", 0xFE781EE6, 0xFE7F9E9D⟩,
  ⟨"raspberry", 0xFE371491, 0xFE849572⟩]

def standardAliases : Entries String := [
  ("grey", "gray"),
  ("gold", "saffron"),
  ("puce", "mauve"),
  ("sand", "tan"),
  ("skin", "peach"),
  ("coral", "salmon"),
  ("azure", "sky"),
  ("ocean", "teal"),
  ("sapphire", "cobalt")]

namespace Table

def standard {s : Space} (color : StandardColor → Color s) : Table s :=
  Builder.build ⟨standardColors.map fun c => (c.name, color c), standardAliases⟩

def standardRgb : Table .rgb := standard fun c => .ofBits c.rgb
def standardIpt : Table .ipt := standard fun c => Ipt.ofRgb (.ofBits c.rgb)
def standardOklab : Table .oklab := standard fun c => .ofBits c.oklab

def builtin : (s : Space) → Table s
  | .rgb => standardRgb
  | .ipt => standardIpt
  | .oklab => standardOklab

end Table
end ColorWords
