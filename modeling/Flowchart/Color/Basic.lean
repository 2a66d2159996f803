import Flowchart.Number.Shortest
import Flowchart.Scalar

/-!
Colours in the spaces that style sheets know, and their text.
-/

namespace Flowchart

inductive ColorSpace where
  | srgb
  | linearSrgb
  | displayP3
  | a98Rgb
  | prophotoRgb
  | rec2020
  | xyzD50
  | xyzD65
  | lab
  | lch
  | oklab
  | oklch
  | hsl
  | hwb
deriving DecidableEq, Repr, Inhabited

namespace ColorSpace

def name : ColorSpace → String
  | .srgb => "srgb"
  | .linearSrgb => "srgb-linear"
  | .displayP3 => "display-p3"
  | .a98Rgb => "a98-rgb"
  | .prophotoRgb => "prophoto-rgb"
  | .rec2020 => "rec2020"
  | .xyzD50 => "xyz-d50"
  | .xyzD65 => "xyz-d65"
  | .lab => "lab"
  | .lch => "lch"
  | .oklab => "oklab"
  | .oklch => "oklch"
  | .hsl => "hsl"
  | .hwb => "hwb"

/-- The space that `color()` means by a lower-case name. -/
def ofName? : String → Option ColorSpace
  | "srgb" => some .srgb
  | "srgb-linear" => some .linearSrgb
  | "display-p3" => some .displayP3
  | "a98-rgb" => some .a98Rgb
  | "prophoto-rgb" => some .prophotoRgb
  | "rec2020" => some .rec2020
  | "xyz-d50" => some .xyzD50
  | "xyz" | "xyz-d65" => some .xyzD65
  | _ => none

end ColorSpace

/-- How a colour was written: by its name, by a function called after its
space, or in no such way. -/
inductive ColorForm where
  | named (name : String)
  | function
  | plain
deriving DecidableEq, Repr, Inhabited

/-- A component may be missing; it then counts as zero. -/
structure Color where
  space : ColorSpace
  form : ColorForm
  first : Option Float32
  second : Option Float32
  third : Option Float32
  opacity : Option Float32
deriving BEq, Repr

namespace Color

/-- Opaque black, not called by its name. -/
def black : Color := ⟨.srgb, .plain, some 0, some 0, some 0, some 1⟩

instance : Inhabited Color := ⟨black⟩

/-- A colour of four bytes, each in steps of one 255th. -/
def ofBytes (form : ColorForm) (red green blue alpha : Nat) : Color :=
  let part (byte : Nat) : Option Float32 := some (Float32.ofNat byte * (1 / 255))
  ⟨.srgb, form, part red, part green, part blue, part alpha⟩

def value (component : Option Float32) : Float32 := component.getD 0

def alpha (color : Color) : Float32 := value color.opacity

/-- What is left of the opacity of a colour that no control flow reaches. -/
def fading : Float32 := 0.45

/-- The same colour with less opacity.  It is no longer the colour it was
written as; one whose opacity is missing stays as it is. -/
def faded (color : Color) : Color :=
  match color.opacity with
  | none => color
  | some opacity =>
      { color with form := .plain, opacity := some (opacity * fading) }

/-! ## Conversion to red, green and blue -/

/-- One channel of a hue, saturation and lightness between zero and a
hundred. -/
def channelOfHsl (hue saturation lightness offset : Float32) : Float32 :=
  let saturation := saturation * 0.01
  let lightness := lightness * 0.01
  let spread := saturation * Scalar.smaller lightness (1 - lightness)
  let turned := offset + hue * (1 / 30)
  let sector := turned - 12 * (turned * (1 / 12)).floor
  let slope := Scalar.smaller (sector - 3) (9 - sector)
  lightness - spread * Scalar.clamp (-1) 1 slope

/-- The channels of a hue, saturation and lightness. -/
def channelsOfHsl (hue saturation lightness : Float32) :
    Float32 × Float32 × Float32 :=
  let channel := channelOfHsl hue saturation lightness
  (channel 0, channel 8, channel 4)

/-- The channels of a hue mixed with white and black. -/
def channelsOfHwb (hue white black : Float32) :
    Float32 × Float32 × Float32 :=
  let white := white * 0.01
  let black := black * 0.01
  if 1 ≤ white + black then
    let gray := white / (white + black)
    (gray, gray, gray)
  else
    let mix (channel : Float32) := white + channel * (1 - white - black)
    let (red, green, blue) := channelsOfHsl hue 100 50
    (mix red, mix green, mix blue)

/-- Hues are shown by their channels; only a missing opacity stays missing. -/
def toSrgb (color : Color) : Color :=
  let first := value color.first
  let second := value color.second
  let third := value color.third
  let ofChannels (channels : Float32 × Float32 × Float32) : Color :=
    ⟨.srgb, .plain, some channels.1, some channels.2.1, some channels.2.2,
      color.opacity⟩
  match color.space with
  | .hsl => ofChannels (channelsOfHsl first second third)
  | .hwb => ofChannels (channelsOfHwb first second third)
  | _ => color

/-! ## Text -/

def componentText (component : Option Float32) (scale : Float32) : String :=
  match component with
  | none => "none"
  | some value => Number.text (value * scale)

/-- The components with commas, and the opacity if there is less than all. -/
def listText (color : Color) (name : String) (scale : Float32) : String :=
  let translucent : Bool := color.alpha < 1
  let colors :=
    componentText color.first scale ++ ", " ++
      componentText color.second scale ++ ", " ++
      componentText color.third scale
  if translucent then
    name ++ "a(" ++ colors ++ ", " ++ componentText color.opacity 1 ++ ")"
  else name ++ "(" ++ colors ++ ")"

/-- The components with blanks, and the opacity after a slash if there is less
than all. -/
def slashText (color : Color) (opening : String) : String :=
  let translucent : Bool := color.alpha < 1
  let colors :=
    componentText color.first 1 ++ " " ++ componentText color.second 1 ++
      " " ++ componentText color.third 1
  let opacity :=
    if translucent then " / " ++ componentText color.opacity 1 else ""
  opening ++ colors ++ opacity ++ ")"

def text (color : Color) : String :=
  match color.form, color.space with
  | .named name, _ => name
  | .function, .srgb | .function, .hsl | .function, .hwb =>
      color.toSrgb.listText "rgb" 255
  | _, .hsl => color.listText "hsl" 1
  | _, .hwb => color.slashText "hwb("
  | _, .lab => color.slashText "lab("
  | _, .lch => color.slashText "lch("
  | _, .oklab => color.slashText "oklab("
  | _, .oklch => color.slashText "oklch("
  | _, space => color.slashText ("color(" ++ space.name ++ " ")

/-- A name for the colour made of letters, digits and underscores only. -/
def identifier (color : Color) : String :=
  let safe (c : Char) : Char := if c.isAlphanum then c else '_'
  "c_" ++ String.ofList (color.text.toList.map safe)

end Color

end Flowchart
