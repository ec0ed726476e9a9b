import RuleFlow.Layout.Coordinate
import RuleFlow.Json.Record

/-! # Layout settings

Four lengths. A configuration for doubles is read from JSON, where a missing key takes its default,
and is valid if every length is finite and not negative. -/

namespace RuleFlow

/-- The lengths of a layout: between layers, between neighbours of a layer, and of a node. -/
structure LayoutConfig (κ : Type) where
  layerSpacing : κ
  nodeSpacing : κ
  nodeWidth : κ
  nodeHeight : κ
deriving DecidableEq, Repr

namespace LayoutConfig

/-- The distance between neighbours of a layer: never less than a node is wide. -/
def effectiveNodeSpacing [Coordinate κ] (c : LayoutConfig κ) : κ :=
  Coordinate.max c.nodeSpacing c.nodeWidth

/-- The lengths used where none are given. -/
def standard : LayoutConfig Double := ⟨.ofNat 150, .ofNat 250, .ofNat 200, .ofNat 60⟩

/-- The lengths with their names. -/
def settings (c : LayoutConfig κ) : List (String × κ) :=
  [("layer_spacing", c.layerSpacing), ("node_spacing", c.nodeSpacing), ("node_width", c.nodeWidth),
   ("node_height", c.nodeHeight)]

/-- A length that a layout can use. -/
def isUsable (x : Double) : Bool := x.isFinite && !x.lt .zero

/-- The first setting that is no usable length. -/
def invalidSetting? (c : LayoutConfig Double) : Option (String × Double) :=
  c.settings.find? fun (_, x) => !isUsable x

def toJson (c : LayoutConfig Double) : Json :=
  .object (c.settings.map fun (name, x) => (name, .ofDouble x))

open Json (Reader Field Fields) in
/-- Reads the settings, whether or not they are usable. -/
def reader : Reader (LayoutConfig Double) :=
  .record "struct LayoutConfig"
    (.field (.withDefault "layer_spacing" Reader.double standard.layerSpacing ["layerSpacing"]) <|
     .field (.withDefault "node_spacing" Reader.double standard.nodeSpacing ["nodeSpacing"]) <|
     .field (.withDefault "node_width" Reader.double standard.nodeWidth ["nodeWidth"]) <|
     .field (.withDefault "node_height" Reader.double standard.nodeHeight ["nodeHeight"]) <|
     .done)
    fun (layerSpacing, nodeSpacing, nodeWidth, nodeHeight, ()) =>
      ⟨layerSpacing, nodeSpacing, nodeWidth, nodeHeight⟩

end LayoutConfig

end RuleFlow
