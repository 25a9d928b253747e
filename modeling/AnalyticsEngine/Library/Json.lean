import Mathlib.Algebra.Notation.Defs
import Mathlib.Data.Int.Notation

/-!
# JSON values
-/

namespace AnalyticsEngine.Library

/-- A finite JSON value, with floats in `φ`. -/
inductive Json (φ : Type*) where
  | null
  | bool (b : Bool)
  | int (n : ℤ)
  | float (x : φ)
  | str (s : String)
  | arr (items : List (Json φ))
  | obj (fields : List (String × Json φ))

variable {φ : Type*}

def Json.orNull {γ : Type*} (render : γ → Json φ) : Option γ → Json φ
  | none => .null
  | some value => render value

def Json.truthy [Zero φ] [DecidableEq φ] : Json φ → Bool
  | .null => false
  | .bool b => b
  | .int n => n ≠ 0
  | .float x => x ≠ 0
  | .str s => s ≠ ""
  | .arr items => !items.isEmpty
  | .obj fields => !fields.isEmpty

end AnalyticsEngine.Library
