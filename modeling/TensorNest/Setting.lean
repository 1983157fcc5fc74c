import TensorNest.Number

/-!
# Settings

A setting is kept as it was given: a number, a text, a list of settings or nothing. What it means is
decided where it is used, so that a setting of a kind that makes no sense is an error only there.
-/

namespace TensorNest

/-- A value that an option is given. -/
inductive Setting where
  | nothing
  | number (v : Number)
  | text (s : String)
  | list (xs : List Setting)
  deriving Inhabited

namespace Setting

instance : Coe Int Setting := ⟨fun n => number (.int n)⟩
instance : Coe Bool Setting := ⟨fun b => number (.bool b)⟩
instance : Coe String Setting := ⟨text⟩

/-- Whether a setting counts as set: numbers other than zero, texts and lists with content do. -/
def truthy : Setting → Bool
  | nothing => false
  | number v => v.truthy
  | text s => !s.isEmpty
  | list xs => !xs.isEmpty

/-- Whether a setting is a number. -/
def isNumber (n : Int) : Setting → Bool
  | number v => v.eq (.int n)
  | _ => false

/-- The number that a setting has to be. -/
def toNumber : Setting → Except Error Number
  | number v => .ok v
  | _ => .error .invalidOperand

/-- Whether an integer is at most a setting, which has to be a number. -/
def allows (limit : Setting) (n : Int) : Except Error Bool := do
  return (Number.int n).le (← limit.toNumber)

/-- A setting as shown in messages. -/
def shown : Setting → String
  | nothing => "None"
  | number v => v.text
  | text s => Text.quoted s
  | list xs => "[" ++ commaList (showns xs) ++ "]"
where
  /-- Several settings as shown in messages. -/
  showns : List Setting → List String
    | [] => []
    | x :: xs => x.shown :: showns xs

/-- A setting written out: texts are not quoted, except inside lists. -/
def plainText : Setting → String
  | text s => s
  | x => x.shown

/-- Whether two settings are the same. Numbers are compared by value if `loose` holds, and otherwise they
    have to be of one kind too. -/
def same (loose : Bool) : Setting → Setting → Bool
  | nothing, nothing => true
  | number v, number w => if loose then v.eq w || v.same w else v.same w
  | text s, text t => s == t
  | list xs, list ys => sames loose xs ys
  | _, _ => false
where
  /-- Whether two lists of settings are the same. -/
  sames (loose : Bool) : List Setting → List Setting → Bool
    | [], [] => true
    | x :: xs, y :: ys => x.same loose y && sames loose xs ys
    | _, _ => false

end Setting

end TensorNest
