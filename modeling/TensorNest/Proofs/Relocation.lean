import Mathlib.Data.List.Forall2
import TensorNest.Proofs.Queries

/-! # Relocated memories

A run adds arrays to memory one after the other, so one that adds fewer of them finds the same array
elsewhere. A relocation says where each storage of a memory is found in another one. Whatever a step of a
machine does, it does in a relocated machine too, with relocated values (`Run.Tracks`): no step depends on the
number of a storage.

A list among the values is the exception: as a condition it is true if it has items, and as a number it is the
numbers in it. Relocated values are no lists. -/

namespace TensorNest

/-- Where the storages of a memory are found in another one, as far as they are there. -/
def Relocation := Nat → Option Nat

namespace Relocation

variable {p q r : Relocation}

/-- A relocation that goes on with another one. -/
def Extends (p q : Relocation) : Prop := ∀ a c, p a = some c → q a = some c

theorem Extends.refl (p : Relocation) : p.Extends p := fun _ _ h => h

theorem Extends.trans (h : p.Extends q) (h' : q.Extends r) : p.Extends r := fun a c hp => h' a c (h a c hp)

/-- The storages below a number stay where they are. -/
def below (n : Nat) : Relocation := fun a => if a < n then some a else none

theorem below_eq_some {n a c : Nat} : below n a = some c ↔ a < n ∧ a = c := by
  simp [below]

/-- A relocation that takes one more storage to a place. -/
def add (p : Relocation) (a c : Nat) : Relocation := fun k => if k = a then some c else p k

theorem add_self {a c : Nat} : p.add a c a = some c := if_pos rfl

theorem add_of_ne {a c k : Nat} (h : k ≠ a) : p.add a c k = p k := if_neg h

theorem extends_add {a c : Nat} (h : p a = none) : p.Extends (p.add a c) := by
  intro k d hk
  rw [add_of_ne, hk]
  rintro rfl
  rw [h] at hk
  cases hk

end Relocation

variable {p q : Relocation}

/-! ### Arrays -/

namespace View

variable {v v' w : View} {c : Nat}

/-- The same elements of another storage. -/
def inStorage (v : View) (c : Nat) : View := { v with storage := c }

/-- An array and where it is found. -/
def Moved (p : Relocation) (v v' : View) : Prop :=
  p v.storage = some v'.storage ∧ v' = v.inStorage v'.storage

theorem Moved.mono (h : v.Moved p v') (hpq : p.Extends q) : v.Moved q v' := ⟨hpq _ _ h.1, h.2⟩

theorem Moved.eq (h : v.Moved p v') : ∃ c, p v.storage = some c ∧ v' = v.inStorage c := ⟨_, h.1, h.2⟩

theorem moved_inStorage (h : p v.storage = some c) : v.Moved p (v.inStorage c) := ⟨h, rfl⟩

theorem at?_inStorage (v : View) (c : Nat) (i : Int) : (v.inStorage c).at? i = (v.at? i).map (·.inStorage c) := by
  obtain ⟨s, t, o, _ | ⟨d, ds⟩, _ | ⟨r, rs⟩⟩ := v
  · rfl
  · rfl
  · rfl
  · simp only [inStorage, at?]
    split <;> rfl

theorem storage_at? {i : Int} (h : v.at? i = some w) : w.storage = v.storage := by
  obtain ⟨s, t, o, _ | ⟨d, ds⟩, _ | ⟨r, rs⟩⟩ := v
  · cases h
  · cases h
  · cases h
  · simp only [at?] at h
    split at h
    · cases h
      rfl
    · cases h

theorem parts_inStorage (v : View) (c : Nat) : (v.inStorage c).parts = v.parts.map (·.inStorage c) := by
  rw [parts, parts, List.map_filterMap]
  exact List.filterMap_congr fun i _ => at?_inStorage v c i

theorem storage_parts (h : w ∈ v.parts) : w.storage = v.storage := by
  obtain ⟨i, -, hi⟩ := List.mem_filterMap.mp h
  exact storage_at? hi

theorem part_inStorage (v : View) (c : Nat) (x : Number) : (v.inStorage c).part x = (·.inStorage c) <$> v.part x := by
  cases x with
  | int n =>
    simp only [part, at?_inStorage]
    cases v.at? n <;> rfl
  | _ => rfl

theorem storage_part {x : Number} (h : v.part x = .ok w) : w.storage = v.storage := by
  cases x with
  | int n =>
    simp only [part] at h
    split at h
    · rename_i hw
      cases h
      exact storage_at? hw
    · cases h
  | _ => cases h

theorem mapM_part (v : View) (c : Nat) (xs : Packed Number) :
    xs.mapM (v.inStorage c).part = Packed.map (·.inStorage c) <$> xs.mapM v.part := by
  have hlist (xs : List Number) : xs.mapM (v.inStorage c).part = List.map (·.inStorage c) <$> xs.mapM v.part := by
    induction xs with
    | nil => rfl
    | cons x xs ih =>
      rw [List.mapM_cons, List.mapM_cons, part_inStorage, ih]
      cases v.part x with
      | error e => rfl
      | ok w => cases xs.mapM v.part <;> rfl
  cases xs with
  | one x =>
    simp only [Packed.mapM, part_inStorage]
    cases v.part x <;> rfl
  | many xs =>
    simp only [Packed.mapM, hlist]
    cases xs.mapM v.part <;> rfl

theorem choose_inStorage (v : View) (c : Nat) (index : Numeric) :
    (v.inStorage c).choose index = Packed.map (·.inStorage c) <$> v.choose index := by
  have hkeep (xs : Packed Number) : (((v.inStorage c).parts.zip xs.toList).filter fun p => p.2.truthy).map (·.1) =
      (((v.parts.zip xs.toList).filter fun p => p.2.truthy).map (·.1)).map (·.inStorage c) := by
    rw [parts_inStorage, List.zip_map_left, List.filter_map, List.map_map, List.map_map]
    rfl
  unfold choose
  split
  · split
    · exact congrArg (fun ws => Except.ok (Packed.many ws)) (parts_inStorage v c)
    · rfl
  · split
    · exact congrArg (fun ws => Except.ok (Packed.many ws)) (parts_inStorage v c)
    · rfl
  · rename_i xs _
    show (if xs.toList.length = v.shape.headD 0 then _ else _) = _
    split
    · exact congrArg (fun ws => Except.ok (Packed.many ws)) (hkeep xs)
    · rfl
  · exact mapM_part v c _

theorem storage_choose {index : Numeric} {ws : Packed View} (h : v.choose index = .ok ws) :
    ∀ w ∈ ws.toList, w.storage = v.storage := by
  have hmapM {xs : List Number} {ws : List View} (h : xs.mapM v.part = .ok ws) : ∀ w ∈ ws, w.storage = v.storage := by
    induction xs generalizing ws with
    | nil =>
      cases h
      exact List.forall_mem_nil _
    | cons x xs ih =>
      rw [List.mapM_cons] at h
      obtain ⟨w, hw, h⟩ := bind_eq_ok.mp h
      obtain ⟨ws', hws, h⟩ := bind_eq_ok.mp h
      cases h
      exact List.forall_mem_cons.mpr ⟨storage_part hw, ih hws⟩
  unfold choose at h
  split at h
  · cases h
    intro w hw
    simp only [Packed.toList] at hw
    split at hw
    · exact storage_parts hw
    · cases hw
  · cases h
    intro w hw
    simp only [Packed.toList] at hw
    split at hw
    · exact storage_parts hw
    · cases hw
  · split at h
    · cases h
      intro w hw
      obtain ⟨⟨w', x⟩, hmem, rfl⟩ := List.mem_map.mp hw
      exact storage_parts (List.of_mem_zip (List.mem_filter.mp hmem).1).1
    · cases h
  · cases hlanes : index.lanes with
    | one x =>
      rw [hlanes] at h
      obtain ⟨w, hw, h⟩ := bind_eq_ok.mp h
      cases h
      exact List.forall_mem_singleton.mpr (storage_part hw)
    | many xs =>
      rw [hlanes] at h
      obtain ⟨ws', hws, h⟩ := bind_eq_ok.mp h
      cases h
      exact hmapM hws

end View

/-! ### Memory -/

namespace Memory

variable {m m' : Memory} {a c : Nat}

/-- A memory and one that holds some of its storages, elsewhere. -/
structure Moved (p : Relocation) (m m' : Memory) : Prop where
  apart : ∀ a b c, p a = some c → p b = some c → a = b
  cells : ∀ a c, p a = some c → a < m.size ∧ m'[c]? = m[a]?

theorem moved_below (m : Memory) : m.Moved (.below m.size) m where
  apart := by
    intro a b c ha hb
    obtain ⟨-, rfl⟩ := Relocation.below_eq_some.mp ha
    exact (Relocation.below_eq_some.mp hb).2.symm
  cells := by
    intro a c h
    obtain ⟨ha, rfl⟩ := Relocation.below_eq_some.mp h
    exact ⟨ha, rfl⟩

theorem Moved.lt (h : m.Moved p m') (hp : p a = some c) : c < m'.size := by
  obtain ⟨ha, hcells⟩ := h.cells a c hp
  rw [Array.getElem?_eq_getElem ha] at hcells
  exact (Array.getElem?_eq_some_iff.mp hcells).1

theorem Moved.fresh (h : m.Moved p m') : p m.size = none := by
  rcases hp : p m.size with _ | c
  · rfl
  · exact absurd (h.cells _ _ hp).1 (Nat.lt_irrefl _)

theorem Moved.read (h : m.Moved p m') (hp : p a = some c) (i : Int) : m'.read c i = m.read a i := by
  rw [Memory.read, Memory.read, (h.cells a c hp).2]

theorem getElem?_write (m : Memory) (a : Nat) (i : Int) (x : Number) (k : Nat) :
    (m.write a i x)[k]? = if k = a then m[k]?.map (·.setIfInBounds i.toNat x) else m[k]? := by
  rw [Memory.write, Array.getElem?_modify]
  by_cases h : a = k
  · subst h
    simp
  · simp [h, Ne.symm h]

theorem size_write (m : Memory) (a : Nat) (i : Int) (x : Number) : (m.write a i x).size = m.size := Array.size_modify

theorem Moved.write (h : m.Moved p m') (hp : p a = some c) (i : Int) (x : Number) :
    (m.write a i x).Moved p (m'.write c i x) where
  apart := h.apart
  cells := by
    intro k d hk
    obtain ⟨hlt, hcells⟩ := h.cells k d hk
    have hsame : d = c ↔ k = a := ⟨fun hd => h.apart k a c (hd ▸ hk) hp,
      fun hka => Option.some.inj (hk.symm.trans (hka ▸ hp))⟩
    rw [size_write, getElem?_write, getElem?_write, hcells]
    simp only [hsame]
    exact ⟨hlt, trivial⟩

theorem Moved.writeAll (h : m.Moved p m') (hp : p a = some c) (is : List Int) (xs : List Number) :
    (m.writeAll a is xs).Moved p (m'.writeAll c is xs) := by
  unfold Memory.writeAll
  induction is.zip xs generalizing m m' with
  | nil => exact h
  | cons d ds ih => exact ih (h.write hp d.1 d.2)

/-- A storage is added to both memories. -/
theorem Moved.push (h : m.Moved p m') (cells : Array Number) :
    Memory.Moved (p.add m.size m'.size) (m.push cells) (m'.push cells) where
  apart := by
    intro a b c ha hb
    by_cases hat : a = m.size <;> by_cases hbt : b = m.size
    · rw [hat, hbt]
    · rw [hat, Relocation.add_self, Option.some.injEq] at ha
      rw [Relocation.add_of_ne hbt, ← ha] at hb
      exact absurd (h.lt hb) (Nat.lt_irrefl _)
    · rw [hbt, Relocation.add_self, Option.some.injEq] at hb
      rw [Relocation.add_of_ne hat, ← hb] at ha
      exact absurd (h.lt ha) (Nat.lt_irrefl _)
    · rw [Relocation.add_of_ne hat] at ha
      rw [Relocation.add_of_ne hbt] at hb
      exact h.apart a b c ha hb
  cells := by
    intro a c ha
    by_cases hat : a = m.size
    · rw [hat, Relocation.add_self, Option.some.injEq] at ha
      subst hat ha
      simp
    · rw [Relocation.add_of_ne hat] at ha
      obtain ⟨hlt, hcells⟩ := h.cells a c ha
      rw [Array.getElem?_push_lt hlt, Array.getElem?_push_lt (h.lt ha), ← Array.getElem?_eq_getElem hlt,
        ← Array.getElem?_eq_getElem (h.lt ha), Array.size_push]
      exact ⟨Nat.lt_succ_of_lt hlt, hcells⟩

/-- More storages in a memory need not be found in the other one. -/
theorem Moved.append (h : m.Moved p m') (cells : Memory) : Memory.Moved p (m ++ cells) m' where
  apart := h.apart
  cells := by
    intro a c ha
    obtain ⟨hlt, hcells⟩ := h.cells a c ha
    rw [Array.getElem?_append_left hlt, Array.size_append]
    exact ⟨by omega, hcells⟩

end Memory

theorem View.Moved.elements {v v' : View} {m m' : Memory} (h : v.Moved p v') (hm : m.Moved p m') :
    v'.elements m' = v.elements m := by
  obtain ⟨c, hc, rfl⟩ := h.eq
  exact List.map_congr_left fun i _ => hm.read hc i

/-! ### Values -/

namespace Value

variable {x x' : Value} {m m' : Memory}

/-- A value, and what it is where the arrays are elsewhere. -/
inductive Moved (p : Relocation) : Value → Value → Prop
  | number (x : Number) : Moved p (number x) (number x)
  | scalar (t : ElemType) (x : Number) : Moved p (scalar t x) (scalar t x)
  | vector (t : ElemType) (xs : List Number) : Moved p (vector t xs) (vector t xs)
  | array {v v' : View} (h : v.Moved p v') : Moved p (array v) (array v')
  | pointer {v v' : View} {offset offset' : Value} (h : v.Moved p v') (hoffset : Moved p offset offset') :
      Moved p (pointer v offset) (pointer v' offset')
  | text (s : String) : Moved p (text s) (text s)
  | function (e : Entry) : Moved p (function e) (function e)
  | nothing : Moved p nothing nothing
  | other (kind : String) : Moved p (other kind) (other kind)

theorem Moved.mono (h : x.Moved p x') (hpq : p.Extends q) : x.Moved q x' := by
  induction h with
  | array h => exact .array (h.mono hpq)
  | pointer h _ ih => exact .pointer (h.mono hpq) ih
  | number | scalar | vector | text | function | nothing | other => constructor

theorem moved_int32 (n : Int) : (int32 n).Moved p (int32 n) := .scalar _ _

theorem moved_ofNumeric (a : Numeric) : (ofNumeric a).Moved p (ofNumeric a) := by
  rcases a with x | ⟨t, x | xs⟩
  · exact .number x
  · exact .scalar t x
  · exact .vector t xs

/-- As an operand a relocated value is what the value is. -/
theorem Moved.numeric (h : x.Moved p x') (hm : m.Moved p m') : x'.numeric m' = x.numeric m := by
  cases h with
  | array h =>
    obtain ⟨c, hc, rfl⟩ := h.eq
    simp only [Value.numeric, (View.moved_inStorage hc).elements hm]
    show Except.ok (Numeric.typed _ (if _ then Packed.one (m'.read c _) else _)) = _
    rw [hm.read hc]
    rfl
  | _ => rfl

theorem Moved.truth (h : x.Moved p x') (hm : m.Moved p m') : x'.truth m' = x.truth m := by
  have hnumeric := h.numeric hm
  cases h with
  | array h => simp only [Value.truth, hnumeric]
  | _ => rfl

theorem Moved.toInt (h : x.Moved p x') (hm : m.Moved p m') : x'.toInt m' = x.toInt m := by
  have hnumeric := h.numeric hm
  cases h with
  | array h => simp only [Value.toInt, hnumeric]
  | pointer => rfl
  | _ => rfl

theorem Moved.stored (h : x.Moved p x') (hm : m.Moved p m') (t : ElemType) : x'.stored m' t = x.stored m t := by
  have hnumeric := h.numeric hm
  cases h with
  | array h => simp only [Value.stored, hnumeric]
  | _ => rfl

theorem Moved.shown (h : x.Moved p x') (hm : m.Moved p m') : x'.shown m' = x.shown m := by
  cases h with
  | array h =>
    have helements := h.elements hm
    obtain ⟨c, hc, rfl⟩ := h.eq
    simp only [Value.shown, View.snapshot, helements]
    rfl
  | _ => rfl

/-- The conversion of a value to a type that is none of handles is made of numbers. -/
theorem Moved.cast {t : DataType} {y : Value} (h : x.Moved p x') (hm : m.Moved p m') (hy : x.cast m t = .ok y) :
    ∃ y', x'.cast m' t = .ok y' ∧ y.Moved p y' := by
  by_cases hhandle : t.isHandle
  · rw [Value.cast, if_pos hhandle] at hy ⊢
    cases hy
    exact ⟨x', rfl, h⟩
  · have hcast : x'.cast m' t = x.cast m t := by
      have hnumeric := h.numeric hm
      cases h <;> simp only [Value.cast, if_neg hhandle, hnumeric]
    refine ⟨y, hcast.trans hy, ?_⟩
    rw [Value.cast, if_neg hhandle] at hy
    obtain ⟨e, -, hy⟩ := bind_eq_ok.mp hy
    have hwhole (z : Number) {y : Value} (hy : y = if 1 <
        t.lanes then .vector e (List.replicate t.lanes.toNat z) else .scalar e z) :
        y.Moved p y := by
      rw [hy]
      split <;> constructor
    cases h with
    | text s =>
      obtain ⟨z, -, hy⟩ := bind_eq_ok.mp hy
      cases hy
      exact hwhole z rfl
    | nothing =>
      obtain ⟨z, -, hy⟩ := bind_eq_ok.mp hy
      cases hy
      exact hwhole z rfl
    | number | scalar | vector | array | pointer | function | other =>
      simp only at hy
      split at hy <;>
      · obtain ⟨a, -, hy⟩ := bind_eq_ok.mp hy
        obtain ⟨b, -, hy⟩ := bind_eq_ok.mp hy
        cases hy
        exact moved_ofNumeric b

end Value

end TensorNest
