import TensorNest.Proofs.Launching
import TensorNest.Proofs.LazyChoices
import TensorNest.Proofs.Relocation

/-! # Steps on relocated machines -/

namespace TensorNest

variable {p q : Relocation}

/-! ### Machines -/

namespace Machine

variable {m m' : Machine}

/-- A shared buffer and where it is found, under the same allocation. -/
def SharedMoved (p : Relocation) (b b' : Stmt × View) : Prop := b.1 = b'.1 ∧ b.2.Moved p b'.2

/-- A machine and one with a relocated memory. -/
structure Moved (p : Relocation) (m m' : Machine) : Prop where
  memory : m.memory.Moved p m'.memory
  workspaces : List.Forall₂ (fun a c => p a = some c) m.workspaces m'.workspaces
  blockBuffers : List.Forall₂ (SharedMoved p) m.blockBuffers m'.blockBuffers
  launchBuffers : List.Forall₂ (SharedMoved p) m.launchBuffers m'.launchBuffers

/-- Other memories in two machines. -/
theorem Moved.withMemory (h : m.Moved p m') (hpq : p.Extends q) {cells cells' : Memory} (hcells : cells.Moved q cells') :
    Moved q { m with memory := cells } { m' with memory := cells' } where
  memory := hcells
  workspaces := h.workspaces.imp fun a c => hpq a c
  blockBuffers := h.blockBuffers.imp fun _ _ hb => ⟨hb.1, hb.2.mono hpq⟩
  launchBuffers := h.launchBuffers.imp fun _ _ hb => ⟨hb.1, hb.2.mono hpq⟩

/-- A machine with more memory. -/
theorem Moved.of_extends {m₁ : Machine} (h : m.Moved p m') (hext : m.Extends m₁) : m₁.Moved p m' := by
  obtain ⟨cells, rfl⟩ := hext
  exact ⟨h.memory.append cells, h.workspaces, h.blockBuffers, h.launchBuffers⟩

end Machine

/-! ### Steps -/

namespace Run

variable {α β γ δ : Type} {R : Relocation → α → β → Prop} {S : Relocation → γ → δ → Prop} {x : Run α} {y : Run β}

/-- Whatever a step does without a failure, another one does on a relocated machine, with a related result. -/
def Tracks (p : Relocation) (R : Relocation → α → β → Prop) (x : Run α) (y : Run β) : Prop :=
  ∀ q, p.Extends q → ∀ m m', m.Moved q m' → ∀ a m₁, on x m = (.ok a, m₁) →
    ∃ r b m₁', q.Extends r ∧ on y m' = (.ok b, m₁') ∧ m₁.Moved r m₁' ∧ R r a b

/-- Results that are the same. -/
abbrev Same (_ : Relocation) (a b : α) : Prop := a = b

theorem Tracks.mono (h : Tracks p R x y) (hpq : p.Extends q) : Tracks q R x y := fun r hr => h r (hpq.trans hr)

theorem Tracks.bind {k : α → Run γ} {k' : β → Run δ} (h : Tracks p R x y)
    (hk : ∀ q a b, p.Extends q → R q a b → Tracks q S (k a) (k' b)) : Tracks p S (x >>= k) (y >>= k') := by
  intro q hq m m' hm c m₂ hc
  obtain ⟨a, m₁, ha, hc⟩ := on_bind_eq_ok.mp hc
  obtain ⟨r, b, m₁', hr, hb, hm₁, hR⟩ := h q hq m m' hm a m₁ ha
  obtain ⟨s, d, m₂', hs, hd, hm₂, hS⟩ := hk r a b (hq.trans hr) hR r (.refl r) m₁ m₁' hm₁ c m₂ hc
  exact ⟨s, d, m₂', hr.trans hs, on_bind_eq_ok.mpr ⟨b, m₁', hb, hd⟩, hm₂, hS⟩

theorem tracks_pure {a : α} {b : β} (h : ∀ q, p.Extends q → R q a b) : Tracks p R (pure a) (pure b) := by
  intro q hq m m' hm c m₁ hc
  cases hc
  exact ⟨q, b, m', .refl q, rfl, hm, h q hq⟩

theorem tracks_throw {e : Error} : Tracks p R (throw e : Run α) y := by
  intro q hq m m' hm c m₁ hc
  have hne : Except.error e = Except.ok c := congrArg Prod.fst hc
  cases hne

theorem tracks_throw_bind {e : Error} {k : γ → Run α} : Tracks p R (throw e >>= k) y := by
  intro q hq m m' hm c m₁ hc
  have hne : Except.error e = Except.ok c := congrArg Prod.fst hc
  cases hne

theorem tracks_lift {z : Except Error α} {z' : Except Error β}
    (h : ∀ a, z = .ok a → ∃ b, z' = .ok b ∧ ∀ q, p.Extends q → R q a b) :
    Tracks p R (liftM z) (liftM z') := by
  cases z with
  | error e => exact tracks_throw
  | ok a =>
    obtain ⟨b, rfl, hR⟩ := h a rfl
    exact tracks_pure hR

theorem tracks_same {z z' : Except Error α} (h : z' = z) : Tracks p Same (liftM z : Run α) (liftM z') :=
  tracks_lift fun a ha => ⟨a, h.trans ha, fun _ _ => rfl⟩

theorem tracks_get {k : Machine → Run α} {k' : Machine → Run β}
    (h : ∀ q m m', p.Extends q → m.Moved q m' → Tracks q R (k m) (k' m')) : Tracks p R (get >>= k) (get >>= k') :=
  fun q hq m m' hm => h q m m' hq hm q (.refl q) m m' hm

theorem tracks_onMemory {change : Memory → Memory × α} {change' : Memory → Memory × β}
    (h : ∀ q m m', p.Extends q → m.Moved q m' →
      ∃ r, q.Extends r ∧ Memory.Moved r (change m).1 (change' m').1 ∧ R r (change m).2 (change' m').2) :
    Tracks p R (onMemory change) (onMemory change') := by
  intro q hq m m' hm a m₁ ha
  obtain ⟨r, hr, hmemory, hR⟩ := h q m.memory m'.memory hq hm.memory
  have hon : on (onMemory change) m = (.ok (change m.memory).2, { m with memory := (change m.memory).1 }) := rfl
  cases hon.symm.trans ha
  exact ⟨r, (change' m'.memory).2, _, hr, rfl, hm.withMemory hr hmemory, hR⟩

end Run

open Run

/-! ### Values -/

section Values

variable {x x' y y' c c' : Value} {a a' : View}

theorem tracks_operand (hx : x.Moved p x') : Tracks p Same (operand x) (operand x') :=
  tracks_get fun _ _ _ hq hm => tracks_same ((hx.mono hq).numeric hm.memory)

theorem tracks_convertTo (t : DataType) (hx : x.Moved p x') : Tracks p Value.Moved (convertTo t x) (convertTo t x') := by
  refine tracks_get fun q m m' hq hm => tracks_lift fun y hy => ?_
  obtain ⟨y', hy', hmoved⟩ := (hx.mono hq).cast hm.memory hy
  exact ⟨y', hy', fun r hr => hmoved.mono hr⟩

theorem tracks_numbers (z : Except Error Numeric) :
    Tracks p Value.Moved (do return Value.ofNumeric (← z) : Run Value) (do return Value.ofNumeric (← z)) :=
  (tracks_same rfl).bind fun _ _ _ _ h => h ▸ tracks_pure fun _ _ => Value.moved_ofNumeric _

/-- A storage is added to both memories. -/
theorem moved_add {m m' : Memory} (hm : m.Moved p m') (t : ElemType) (shape : List Nat) (cells : Array Number) :
    ∃ q, p.Extends q ∧ Memory.Moved q (m.add cells).1 (m'.add cells).1 ∧
      (View.whole (m.add cells).2 t shape).Moved q (.whole (m'.add cells).2 t shape) :=
  ⟨p.add m.size m'.size, Relocation.extends_add hm.fresh, hm.push cells, Relocation.add_self, rfl⟩

theorem tracks_addArray (t : ElemType) (shape : List Nat) (xs : List Number) :
    Tracks p View.Moved (onMemory fun m => m.addArray t shape xs) (onMemory fun m => m.addArray t shape xs) :=
  tracks_onMemory fun _ _ _ _ hm => moved_add hm t shape xs.toArray

theorem tracks_addZeros (t : ElemType) (size : Nat) :
    Tracks p View.Moved (onMemory fun m => m.addZeros t size) (onMemory fun m => m.addZeros t size) :=
  tracks_onMemory fun _ _ _ _ hm => moved_add hm t [size] (Array.replicate size t.zero)

theorem tracks_place (hx : x.Moved p x') : Tracks p Value.Moved (place x) (place x') := by
  cases hx with
  | vector t xs =>
    exact (tracks_addArray t [xs.length] xs).bind fun q a a' hq ha => tracks_pure fun r hr => .array (ha.mono hr)
  | number | scalar | array | pointer | text | function | nothing | other =>
    exact tracks_pure fun r hr => Value.Moved.mono (by constructor <;> assumption) hr

theorem tracks_truth (hx : x.Moved p x') :
    Tracks p Same (do x.truth (← get).memory : Run Bool) (do x'.truth (← get).memory) :=
  tracks_get fun _ _ _ hq hm => tracks_same ((hx.mono hq).truth hm.memory)

theorem tracks_toInt (hx : x.Moved p x') :
    Tracks p Same (do x.toInt (← get).memory : Run Int) (do x'.toInt (← get).memory) :=
  tracks_get fun _ _ _ hq hm => tracks_same ((hx.mono hq).toInt hm.memory)

theorem tracks_condition (hc : c.Moved p c') : Tracks p Same (condition c) (condition c') := by
  refine tracks_get fun q m m' hq hm => ?_
  have hc := hc.mono hq
  simp only [hc.numeric hm.memory, hc.truth hm.memory]
  cases c.numeric m.memory with
  | ok a => exact tracks_pure fun _ _ => rfl
  | error => exact (tracks_same rfl).bind fun _ _ _ _ h => h ▸ tracks_pure fun _ _ => rfl

theorem moved_of_combineTexts {op : BinOp} {s t : String} {z : Value} (h : combineTexts op s t = .ok z) : z.Moved p z := by
  cases op <;> cases h <;> constructor

theorem tracks_combine (op : BinOp) (t : DataType) (hx : x.Moved p x') (hy : y.Moved p y') :
    Tracks p Value.Moved (combine op t x y) (combine op t x' y') := by
  unfold combine
  split
  · refine (tracks_condition hx).bind fun q a _ hq h => h ▸ ?_
    refine (tracks_condition (hy.mono hq)).bind fun r b _ hr h => h ▸ ?_
    exact tracks_numbers _
  · have hresult (q : Relocation) (z z' : Value) (hz : z.Moved q z') : Tracks q Value.Moved
        (if op.isLogical then pure z else convertTo t z) (if op.isLogical then pure z' else convertTo t z') := by
      split
      · exact tracks_pure fun r hr => hz.mono hr
      · exact tracks_convertTo t hz
    have hnumbers : Tracks p Value.Moved
        (do
          let z := Value.ofNumeric (← arithmetic op t (← operand x) (← operand y))
          if op.isLogical then pure z else convertTo t z)
        (do
          let z := Value.ofNumeric (← arithmetic op t (← operand x') (← operand y'))
          if op.isLogical then pure z else convertTo t z) := by
      refine (tracks_operand hx).bind fun q a _ hq h => h ▸ ?_
      refine (tracks_operand (hy.mono hq)).bind fun r b _ hr h => h ▸ ?_
      exact (tracks_same rfl).bind fun s z _ _ h => h ▸ hresult s _ _ (Value.moved_ofNumeric z)
    cases hx with
    | text s =>
      cases hy with
      | text u =>
        exact Tracks.bind (tracks_lift fun z hz => ⟨z, hz, fun _ _ => moved_of_combineTexts hz⟩) fun q z z' _ hz =>
          hresult q z z' hz
      | number | scalar | vector | array | pointer | function | nothing | other => exact hnumbers
    | number | scalar | vector | array | pointer | function | nothing | other => exact hnumbers

theorem tracks_chosen (hc : c.Moved p c') (hx : x.Moved p x') (hy : y.Moved p y') :
    Tracks p Value.Moved (chosen c x y) (chosen c' x' y') := by
  refine tracks_get fun q m m' hq hm => ?_
  have hx := hx.mono hq
  have hy := hy.mono hq
  have hc := hc.mono hq
  simp only [hx.numeric hm.memory, hy.numeric hm.memory, hc.truth hm.memory]
  have hwhole : Tracks q Value.Moved (do return if ← c.truth m.memory then x else y)
    (do return if ← c.truth m.memory then x' else y') := by
    refine (tracks_same rfl).bind fun r b _ hr h => h ▸ tracks_pure fun s hs => ?_
    split
    · exact hx.mono (hr.trans hs)
    · exact hy.mono (hr.trans hs)
  split
  · exact (tracks_condition hc).bind fun r a _ hr h => h ▸ tracks_numbers _
  · exact hwhole

end Values

/-! ### Loads and stores -/

section Arrays

variable {f : Frame} {xs : List Value} {a a' : View} {x x' y y' : Value} {mask mask' : Option Value}

theorem tracks_loadAt (ha : a.Moved p a') (i : Numeric) : Tracks p Value.Moved (loadAt a i) (loadAt a' i) := by
  refine tracks_get fun q m m' hq hm => ?_
  obtain ⟨c, hc, rfl⟩ := (ha.mono hq).eq
  have helements {w : View} (hw : w.storage = a.storage) : (w.inStorage c).elements m'.memory = w.elements m.memory :=
    (View.moved_inStorage (hw ▸ hc)).elements hm.memory
  refine Tracks.bind (R := fun _ ws ws' => ws' = ws.map (·.inStorage c) ∧ ∀ w ∈ ws.toList, w.storage = a.storage)
    (tracks_lift fun ws hws => ⟨ws.map (·.inStorage c), ?_, fun _ _ => ⟨rfl, View.storage_choose hws⟩⟩) ?_
  · rw [View.choose_inStorage, hws]
    rfl
  · rintro r (w | ws) _ hr ⟨rfl, hstorage⟩
    · have hw : w.storage = a.storage := hstorage w (List.mem_singleton_self w)
      simp only [Packed.map]
      rw [show (w.inStorage c).rank = w.rank from rfl]
      split
      · refine tracks_pure fun s _ => ?_
        show Value.Moved s (.scalar a.type _) (.scalar a.type (m'.memory.read c w.offset))
        rw [hm.memory.read (hw ▸ hc)]
        exact .scalar _ _
      · refine tracks_pure fun s _ => ?_
        rw [helements hw]
        exact .vector _ _
    · refine tracks_pure fun s _ => ?_
      have hall : ((ws.map (·.inStorage c)).flatMap fun w => w.elements m'.memory) = ws.flatMap fun w =>
        w.elements m.memory := by
        rw [List.flatMap_map]
        exact List.flatMap_congr fun w hw => helements (hstorage w hw)
      simp only [hall]
      exact .vector _ _

theorem tracks_storeParts {ws : List View} {c : Nat} (hc : p a.storage = some c) (value : Numeric)
    (mismatch mismatch' : List Int → Error) :
    Tracks p (fun _ _ _ => True) (storeParts a ws value mismatch)
      (storeParts (a.inStorage c) (ws.map (·.inStorage c)) value mismatch') := by
  unfold storeParts
  refine (tracks_same rfl).bind fun q lanes _ hq h => h ▸ ?_
  have hshape : (a.inStorage c).shape = a.shape := rfl
  rw [List.length_map, List.flatMap_map, hshape]
  split
  · exact tracks_onMemory fun r m m' hr hm => ⟨r, .refl r, hm.writeAll (hr _ _ (hq _ _ hc)) _ _, trivial⟩
  · exact tracks_throw

theorem tracks_storeAt (ha : a.Moved p a') (i : Numeric) (hx : x.Moved p x') :
    Tracks p (fun _ _ _ => True) (storeAt a i x) (storeAt a' i x') := by
  obtain ⟨c, hc, rfl⟩ := ha.eq
  unfold storeAt
  refine Tracks.bind (R := fun _ ws ws' => ws' = ws.map (·.inStorage c) ∧ ∀ w ∈ ws.toList, w.storage = a.storage)
    (tracks_lift fun ws hws => ⟨ws.map (·.inStorage c), ?_, fun _ _ => ⟨rfl, View.storage_choose hws⟩⟩) ?_
  · rw [View.choose_inStorage, hws]
    rfl
  · rintro q (w | ws) _ hq ⟨rfl, hstorage⟩
    · have hw : w.storage = a.storage := hstorage w (List.mem_singleton_self w)
      simp only [Packed.map]
      rw [show (w.inStorage c).rank = w.rank from rfl]
      split
      · refine tracks_get fun r m m' hr hm => Tracks.bind (R := Same) (tracks_lift fun z hz => ⟨z, ?_, fun _ _ => rfl⟩) ?_
        · exact ((hx.mono (hq.trans hr)).stored hm.memory a.type).trans hz
        · intro s z _ hs h
          subst h
          refine tracks_onMemory fun t m m' ht hm => ⟨t, .refl t, hm.write (a := w.storage) (c := c) ?_ w.offset z, trivial⟩
          exact ht _ _ (hs _ _ (hr _ _ (hq _ _ (hw ▸ hc))))
      · refine (tracks_operand (hx.mono hq)).bind fun r z _ hr h => h ▸ ?_
        exact tracks_storeParts (hr _ _ (hq _ _ hc)) z _ _
    · refine (tracks_operand (hx.mono hq)).bind fun r z _ hr h => h ▸ ?_
      exact tracks_storeParts (hr _ _ (hq _ _ hc)) z _ _

theorem tracks_checkIndex (v : Expr) (ha : a.Moved p a') (i : Numeric) :
    Tracks p (fun _ _ _ => True) (liftM (f.checkIndex v a i) : Run Unit)
      (liftM (({ f with args := xs } : Frame).checkIndex v a' i)) := by
  obtain ⟨c, -, rfl⟩ := ha.eq
  exact tracks_lift fun _ h => ⟨(), h, fun _ _ => trivial⟩

/-- Masks that are both missing, or masks by relocated values. -/
abbrev MaskMoved (p : Relocation) : Option Value → Option Value → Prop := Option.Rel (Value.Moved p)

theorem tracks_loadFrom (v : Expr) (ha : a.Moved p a') (hx : x.Moved p x') (hmask : MaskMoved p mask mask') :
    Tracks p Value.Moved (loadFrom f v a x mask) (loadFrom { f with args := xs } v a' x' mask') := by
  have hrest (q : Relocation) (hq : p.Extends q) (i : Numeric) : Tracks q Value.Moved
      (do f.checkIndex v a i; loadAt a i) (do ({ f with args := xs } : Frame).checkIndex v a' i; loadAt a' i) :=
    (tracks_checkIndex v (ha.mono hq) i).bind fun r _ _ hr _ => tracks_loadAt (ha.mono (hq.trans hr)) i
  refine (tracks_operand hx).bind fun q i _ hq h => h ▸ ?_
  cases hmask with
  | none => exact hrest q hq i
  | some hp =>
    refine (tracks_operand (hp.mono hq)).bind fun r b _ hr h => h ▸ ?_
    exact (tracks_same rfl).bind fun s j _ hs h => h ▸ hrest s ((hq.trans hr).trans hs) j

theorem tracks_storeTo (v : Expr) (ha : a.Moved p a') (hx : x.Moved p x') (hy : y.Moved p y')
    (hmask : MaskMoved p mask mask') :
    Tracks p (fun _ _ _ => True) (storeTo f v a x y mask) (storeTo { f with args := xs } v a' x' y' mask') := by
  refine (tracks_operand hx).bind fun q i _ hq h => h ▸ ?_
  cases hmask with
  | none =>
    exact (tracks_checkIndex v (ha.mono hq) i).bind fun r _ _ hr _ =>
      tracks_storeAt (ha.mono (hq.trans hr)) i (hy.mono (hq.trans hr))
  | some hp =>
    refine (tracks_operand (hp.mono hq)).bind fun r b _ hr h => h ▸ ?_
    refine (tracks_operand (hy.mono (hq.trans hr))).bind fun s z _ hs h => h ▸ ?_
    refine (tracks_same rfl).bind fun t d _ ht h => h ▸ ?_
    have hext := ((hq.trans hr).trans hs).trans ht
    exact (tracks_checkIndex v (ha.mono hext) d.1).bind fun u _ _ hu _ =>
      tracks_storeAt (ha.mono (hext.trans hu)) d.1 (Value.moved_ofNumeric d.2)

end Arrays

/-! ### Arguments and calls -/

/-- Values, and what they are where the arrays are elsewhere. -/
abbrev ValuesMoved (p : Relocation) : List Value → List Value → Prop := List.Forall₂ (Value.Moved p)

theorem ValuesMoved.mono {xs xs' : List Value} (h : ValuesMoved p xs xs') (hpq : p.Extends q) : ValuesMoved q xs xs' :=
  h.imp fun _ _ hx => hx.mono hpq

theorem getElem?_of_forall₂ {α β : Type} {R : α → β → Prop} {as : List α} {bs : List β} (h : List.Forall₂ R as bs)
    {i : Nat} {a : α}
    (ha : as[i]? = some a) : ∃ b, bs[i]? = some b ∧ R a b := by
  induction h generalizing i with
  | nil => cases ha
  | cons hab _ ih =>
    cases i with
    | zero =>
      cases ha
      exact ⟨_, rfl, hab⟩
    | succ i => exact ih ha

/-- What a call does, it does where the arrays are elsewhere, too. -/
def Relocatable (call : Entry → List Value → Effect Unit) : Prop :=
  ∀ (p : Relocation) (e : Entry) (xs xs' : List Value) (m m' m₁ : Memory), ValuesMoved p xs xs' → m.Moved p m' →
    ((call e xs).run.run m : Except Error Unit × Memory) = (.ok (), m₁) →
    ∃ q m₁', p.Extends q ∧ ((call e xs').run.run m' : Except Error Unit × Memory) = (.ok (), m₁') ∧ m₁.Moved q m₁'

section Calls

variable {f : Frame} {xs : List Value} {x x' y y' : Value} {as as' : List Value}

theorem tracks_argAt (hargs : ValuesMoved p f.args xs) (hx : x.Moved p x') :
    Tracks p (fun q a b => a.1 = b.1 ∧ a.2.Moved q b.2) (f.argAt x) (({ f with args := xs } : Frame).argAt x') := by
  refine tracks_get fun q m m' hq hm => Tracks.bind (tracks_same ((hx.mono hq).toInt hm.memory)) fun r n _ hr h => h ▸ ?_
  split
  · rename_i v hv
    split at hv
    · rename_i hn
      obtain ⟨v', hv', hmoved⟩ := getElem?_of_forall₂ hargs hv
      simp only [hn, if_true, hv']
      exact tracks_pure fun s hs => ⟨rfl, hmoved.mono ((hq.trans hr).trans hs)⟩
    · cases hv
  · exact tracks_throw

theorem tracks_arrayArg (hargs : ValuesMoved p f.args xs) (hx : x.Moved p x') :
    Tracks p (fun q a b => a.1 = b.1 ∧ a.2.Moved q b.2) (f.arrayArg x) (({ f with args := xs } : Frame).arrayArg x') := by
  refine (tracks_argAt hargs hx).bind fun q a b hq hab => ?_
  obtain ⟨n, v⟩ := a
  obtain ⟨_, v'⟩ := b
  obtain ⟨rfl, hv⟩ := hab
  cases hv with
  | array hv => exact tracks_pure fun r hr => ⟨rfl, hv.mono hr⟩
  | _ => exact tracks_throw

theorem tracks_axisOf {g : View → List Int} (hg : ∀ (v : View) c, g (v.inStorage c) = g v) (hargs : ValuesMoved p f.args xs)
    (hx : x.Moved p x') (hy : y.Moved p y') :
    Tracks p Value.Moved (f.axisOf x y g) (({ f with args := xs } : Frame).axisOf x' y' g) := by
  refine (tracks_arrayArg hargs hx).bind fun q a b hq hab => ?_
  obtain ⟨n, v⟩ := a
  obtain ⟨_, v'⟩ := b
  obtain ⟨rfl, hv⟩ := hab
  obtain ⟨c, -, rfl⟩ := hv.eq
  refine tracks_get fun r m m' hr hm =>
    Tracks.bind (tracks_same ((hy.mono (hq.trans hr)).toInt hm.memory)) fun s d _ hs h => h ▸ ?_
  dsimp only
  rw [hg, show (v.inStorage c).rank = v.rank from rfl]
  split
  · exact tracks_throw_bind
  · split
    · exact tracks_pure fun _ _ => Value.moved_int32 _
    · exact tracks_throw

theorem tracks_function (hx : x.Moved p x') :
    Tracks p Same (f.function x) (({ f with args := xs } : Frame).function x') := by
  refine tracks_get fun q m m' hq hm => ?_
  simp only [(hx.mono hq).shown hm.memory]
  cases f.resolve with
  | some resolve => exact tracks_same rfl
  | none => exact tracks_throw

theorem tracks_invoke (xs : List Value) (hcall : Relocatable f.call) (e : Entry) (has : ValuesMoved p as as') :
    Tracks p Value.Moved (f.invoke e as) (({ f with args := xs } : Frame).invoke e as') := by
  intro q hq m m' hm a m₁ ha
  rcases hresult : ((f.call e as).run.run m.memory : Except Error Unit × Memory) with ⟨_ | _, cells⟩
  · rw [Func.on_invoke hresult] at ha
    cases ha
  · rw [Func.on_invoke hresult] at ha
    cases ha
    obtain ⟨r, cells', hr, hresult', hcells⟩ := hcall q e as as' m.memory m'.memory cells (has.mono hq) hm.memory hresult
    exact ⟨r, .number (.int 0), _, hr, Func.on_invoke (f := { f with args := xs }) hresult', hm.withMemory hr hcells,
      .number _⟩

theorem View.reshape?_inStorage (v : View) (c : Nat) (shape : List Nat) :
    (v.inStorage c).reshape? shape = (v.reshape? shape).map (·.inStorage c) := by
  rw [View.reshape?, View.reshape?, show (v.inStorage c).isCompact = v.isCompact from rfl]
  split
  · rfl
  · rw [Option.map_map]
    rfl

theorem View.storage_reshape? {v w : View} {shape : List Nat} (h : v.reshape? shape = some w) : w.storage = v.storage := by
  rw [View.reshape?] at h
  split at h
  · cases h
    rfl
  · obtain ⟨strides, -, rfl⟩ := Option.map_eq_some_iff.mp h
    rfl

theorem tracks_flatten {v v' : View} (hv : v.Moved p v') :
    Tracks p View.Moved (onMemory fun m => m.flatten v) (onMemory fun m => m.flatten v') := by
  refine tracks_onMemory fun q m m' hq hm => ?_
  have hv := hv.mono hq
  have helements := hv.elements hm
  obtain ⟨c, hc, rfl⟩ := hv.eq
  have hsize : (v.inStorage c).size = v.size := rfl
  simp only [Memory.flatten, Memory.reshape, hsize, View.reshape?_inStorage, helements]
  cases hw : v.reshape? [v.size] with
  | some w => exact ⟨q, .refl q, hm, View.moved_inStorage (View.storage_reshape? hw ▸ hc)⟩
  | none => exact moved_add hm v.type [v.size] (v.elements m).toArray

theorem forall₂_erase {m m' : Memory} (hm : m.Moved p m') {a c : Nat} (hp : p a = some c) {ws ws' : List Nat}
    (h : List.Forall₂ (fun a c => p a = some c) ws ws') :
    ws'.contains c = ws.contains a ∧ List.Forall₂ (fun a c => p a = some c) (ws.erase a) (ws'.erase c) := by
  induction h with
  | nil => exact ⟨rfl, .nil⟩
  | @cons b d ws ws' hb h ih =>
    have hsame : (d == c) = (b == a) := by
      rw [Bool.eq_iff_iff, beq_iff_eq, beq_iff_eq]
      exact ⟨fun hd => hm.apart b a c (hd ▸ hb) hp, fun hba => Option.some.inj (hb.symm.trans (hba ▸ hp))⟩
    have hsame' : (c == d) = (a == b) := by rw [BEq.comm, hsame, BEq.comm]
    refine ⟨by rw [List.contains_cons, List.contains_cons, hsame', ih.1], ?_⟩
    rw [List.erase_cons, List.erase_cons, hsame]
    split
    · exact h
    · exact .cons hb ih.2

theorem tracks_allocate (hx : x.Moved p x') (hy : y.Moved p y') {z z' : Value} (hz : z.Moved p z') :
    Tracks p Value.Moved (Frame.allocate x y z) (Frame.allocate x' y' z') := by
  refine tracks_get fun q m m' hq hm => ?_
  have hx := (hx.mono hq).toInt hm.memory
  have hy := (hy.mono hq).toInt hm.memory
  have hz := (hz.mono hq).toInt hm.memory
  simp only [hx, hy, hz]
  refine (tracks_same rfl).bind fun r code _ hr h => h ▸ ?_
  split
  · exact tracks_throw
  · refine (tracks_same rfl).bind fun r bits _ hr h => h ▸ (tracks_same rfl).bind fun r nbytes _ hr h => h ▸
      (tracks_same rfl).bind fun r e _ hr h => h ▸ ?_
    split
    · exact tracks_throw_bind
    · refine (tracks_addZeros e _).bind fun s v v' hs hv => ?_
      intro t ht m m' hm a m₁ ha
      cases ha
      exact ⟨t, _, _, .refl t, rfl, ⟨hm.memory, .cons (ht _ _ hv.1) hm.workspaces, hm.blockBuffers, hm.launchBuffers⟩,
        .array (hv.mono ht)⟩

theorem tracks_free (hx : x.Moved p x') : Tracks p Value.Moved (f.free x) (({ f with args := xs } : Frame).free x') := by
  cases hx with
  | array hv =>
    refine tracks_get fun q m m' hq hm => ?_
    obtain ⟨hcontains, -⟩ := forall₂_erase hm.memory (hv.mono hq).1 hm.workspaces
    rw [hcontains]
    split
    · intro r hr m m' hm a m₁ ha
      cases ha
      obtain ⟨-, herase⟩ := forall₂_erase hm.memory (hv.mono (hq.trans hr)).1 hm.workspaces
      exact ⟨r, _, _, .refl r, rfl, ⟨hm.memory, herase, hm.blockBuffers, hm.launchBuffers⟩, .number _⟩
    · exact tracks_throw
  | _ => exact tracks_throw

theorem tracks_arrayNumber (hargs : ValuesMoved p f.args xs) (hx : x.Moved p x') {g : View → Value}
    (hg : ∀ (v : View) c r, (g v).Moved r (g (v.inStorage c))) :
    Tracks p Value.Moved (do return g (← f.arrayArg x).2)
      (do return g (← ({ f with args := xs } : Frame).arrayArg x').2) := by
  refine (tracks_arrayArg hargs hx).bind fun q a b _ hab => tracks_pure fun r _ => ?_
  obtain ⟨c, -, hc⟩ := hab.2.eq
  rw [hc]
  exact hg a.2 c r

/-- An intrinsic does the same with relocated arguments. -/
theorem tracks_apply (hargs : ValuesMoved p f.args xs) (hcall : Relocatable f.call) (t : DataType) (i : Intrinsic)
    (has : ValuesMoved p as as') : Tracks p Value.Moved (i.apply f t as) (i.apply { f with args := xs } t as') := by
  have hconst (y : Value) (hy : ∀ q, y.Moved q y) : Tracks p Value.Moved (pure y) (pure y) := tracks_pure fun q _ => hy q
  cases i with
  | numArgs =>
    cases has with
    | nil =>
      simp only [Intrinsic.apply, hargs.length_eq]
      exact hconst _ fun q => Value.moved_int32 _
    | cons => exact tracks_throw
  | storageSync | prefetch => exact hconst _ fun q => Value.moved_int32 0
  | argData =>
    cases has with
    | nil => exact tracks_throw
    | cons hx has =>
      cases has with
      | nil =>
        refine (tracks_arrayArg hargs hx).bind fun q a b hq hab => ?_
        exact (tracks_flatten hab.2).bind fun r v v' hr hv => tracks_pure fun s hs => .array (hv.mono hs)
      | cons => exact tracks_throw
  | argNdim =>
    cases has with
    | nil => exact tracks_throw
    | cons hx has =>
      cases has with
      | nil => exact tracks_arrayNumber (g := fun v => .int32 v.rank) hargs hx fun _ _ _ => .scalar _ _
      | cons => exact tracks_throw
  | argTypeCode =>
    cases has with
    | nil => exact tracks_throw
    | cons hx has =>
      cases has with
      | nil =>
        exact tracks_arrayNumber (g := fun v => .scalar (.uint 8) (.int v.type.dataType.code.toNat)) hargs hx fun _ _ _ =>
          .scalar _ _
      | cons => exact tracks_throw
  | argTypeBits =>
    cases has with
    | nil => exact tracks_throw
    | cons hx has =>
      cases has with
      | nil =>
        exact tracks_arrayNumber (g := fun v => .scalar (.uint 8) (.int v.type.dataType.bits)) hargs hx fun _ _ _ =>
          .scalar _ _
      | cons => exact tracks_throw
  | argTypeLanes =>
    cases has with
    | nil => exact tracks_throw
    | cons hx has =>
      cases has with
      | nil => exact hconst _ fun q => .scalar _ _
      | cons => exact tracks_throw
  | argElemOffset =>
    cases has with
    | nil => exact tracks_throw
    | cons hx has =>
      cases has with
      | nil => exact hconst _ fun q => .scalar _ _
      | cons => exact tracks_throw
  | argValue =>
    cases has with
    | nil => exact tracks_throw
    | cons hx has =>
      cases has with
      | nil => exact (tracks_argAt hargs hx).bind fun q a b _ hab => tracks_convertTo t hab.2
      | cons => exact tracks_throw
  | argShape =>
    rcases has with _ | ⟨hx, _ | ⟨hy, _ | ⟨_, _⟩⟩⟩
    · exact tracks_throw
    · exact tracks_throw
    · exact tracks_axisOf (g := fun v => v.shape.map fun (n : Nat) => (n : Int)) (fun _ _ => rfl) hargs hx hy
    · exact tracks_throw
  | argStride =>
    rcases has with _ | ⟨hx, _ | ⟨hy, _ | ⟨_, _⟩⟩⟩
    · exact tracks_throw
    · exact tracks_throw
    · exact tracks_axisOf (g := (·.strides)) (fun _ _ => rfl) hargs hx hy
    · exact tracks_throw
  | likely | threadContext =>
    cases has with
    | nil => exact tracks_throw
    | cons hx has =>
      cases has with
      | nil => exact tracks_pure fun q hq => hx.mono hq
      | cons => exact tracks_throw
  | allocWorkspace =>
    rcases has with _ | ⟨hw, _ | ⟨hx, _ | ⟨hy, _ | ⟨hz, _ | ⟨_, _⟩⟩⟩⟩⟩
    · exact tracks_throw
    · exact tracks_throw
    · exact tracks_throw
    · exact tracks_throw
    · exact tracks_allocate hx hy hz
    · exact tracks_throw
  | freeWorkspace =>
    rcases has with _ | ⟨hw, _ | ⟨hx, _ | ⟨_, _⟩⟩⟩
    · exact tracks_throw
    · exact tracks_throw
    · exact tracks_free hx
    · exact tracks_throw
  | getFunc =>
    rcases has with _ | ⟨hx, _ | ⟨_, _⟩⟩
    · exact tracks_throw
    · exact (tracks_function hx).bind fun q e _ _ h => h ▸ tracks_pure fun _ _ => .function e
    · exact tracks_throw
  | callPacked =>
    rcases has with _ | ⟨hx, has⟩
    · exact tracks_throw
    · cases hx with
      | function e => exact tracks_invoke xs hcall e has
      | _ => exact tracks_throw
  | callDevice =>
    rcases has with _ | ⟨hx, has⟩
    · exact tracks_throw
    · exact (tracks_function hx).bind fun q e _ hq h => h ▸ tracks_invoke xs hcall e (ValuesMoved.mono has hq)

theorem tracks_mapM_operand (has : ValuesMoved p as as') : Tracks p Same (as.mapM operand) (as'.mapM operand) := by
  induction has with
  | nil => exact tracks_pure fun _ _ => rfl
  | cons hx has ih =>
    rw [List.mapM_cons, List.mapM_cons]
    refine (tracks_operand hx).bind fun q n _ hq h => h ▸ (ih.mono hq).bind fun r ns _ hr h => h ▸ ?_
    exact tracks_pure fun _ _ => rfl

theorem tracks_callNamed (hargs : ValuesMoved p f.args xs) (hcall : Relocatable f.call) (t : DataType) (name : String)
    (has : ValuesMoved p as as') :
    Tracks p Value.Moved (callNamed f t name as) (callNamed { f with args := xs } t name as') := by
  unfold callNamed
  split
  · exact tracks_apply hargs hcall t _ has
  · split
    · refine (tracks_mapM_operand has).bind fun q ns _ hq h => h ▸ (tracks_same rfl).bind fun r z _ hr h => h ▸ ?_
      exact tracks_convertTo t (Value.moved_ofNumeric z)
    · exact tracks_throw

end Calls

/-! ### Expressions -/

namespace Env

variable {env env' : Env} {x x' : Value} {v : Var}

/-- An environment, and one that has its values where the arrays are elsewhere. -/
def Moved (p : Relocation) (env env' : Env) : Prop :=
  ∀ k x, env.lookup k = some x → ∃ x', env'.lookup k = some x' ∧ x.Moved p x'

theorem Moved.mono (h : Moved p env env') (hpq : p.Extends q) : Moved q env env' := by
  intro k x hx
  obtain ⟨x', hx', hmoved⟩ := h k x hx
  exact ⟨x', hx', hmoved.mono hpq⟩

theorem Moved.set (h : Moved p env env') (hx : x.Moved p x') : Moved p (env.set v x) (env'.set v x') := by
  intro k y hy
  by_cases hk : k = v.id
  · subst hk
    rw [lookup_set_self, Option.some.injEq] at hy
    exact ⟨x', lookup_set_self, hy ▸ hx⟩
  · rw [lookup_set hk] at hy ⊢
    exact h k y hy

theorem Moved.erase (h : Moved p env env') : Moved p (env.erase v) (env'.erase v) := by
  intro k y hy
  by_cases hk : k = v.id
  · subst hk
    rw [lookup_erase_self] at hy
    cases hy
  · rw [lookup_erase hk] at hy ⊢
    exact h k y hy

end Env

section Evaluation

variable {f : Frame} {xs : List Value} {env env' : Env}

theorem tracks_buffer (henv : env.Moved p env') (e : Expr) :
    Tracks p View.Moved (liftM (f.buffer env e) : Run View) (liftM (({ f with args := xs } : Frame).buffer env' e)) := by
  refine tracks_lift fun a ha => ?_
  cases e with
  | var v =>
    simp only [Frame.buffer] at ha
    split at ha
    · rename_i b hb
      cases ha
      obtain ⟨x', hx', hmoved⟩ := henv v.id _ hb
      cases hmoved with
      | @array _ a' hmoved =>
        have hget : env'.get? v = some (.array a') := hx'
        exact ⟨a', by simp only [Frame.buffer, hget], fun q hq => hmoved.mono hq⟩
    · cases ha
    · cases ha
  | _ => cases ha

theorem tracks_evalAll {es : List Expr} (h : ∀ e ∈ es, Tracks p Value.Moved (e.eval f env)
      (e.eval { f with args := xs } env')) :
    Tracks p ValuesMoved (Expr.eval.evalAll f env es) (Expr.eval.evalAll { f with args := xs } env' es) := by
  induction es with
  | nil => exact tracks_pure fun _ _ => .nil
  | cons e es ih =>
    obtain ⟨he, hes⟩ := List.forall_mem_cons.mp h
    refine he.bind fun q x x' hq hx => ((ih hes).mono hq).bind fun r ys ys' hr hys => tracks_pure fun s hs => ?_
    exact .cons (hx.mono (hr.trans hs)) (ValuesMoved.mono hys hs)

theorem tracks_evalMask {pred : Option Expr} (h : ∀ e ∈ pred,
      Tracks p Value.Moved (e.eval f env) (e.eval { f with args := xs } env')) :
    Tracks p MaskMoved (Expr.eval.evalMask f env pred) (Expr.eval.evalMask { f with args := xs } env' pred) := by
  cases pred with
  | none => exact tracks_pure fun _ _ => .none
  | some e => exact (h e rfl).bind fun q x x' _ hx => tracks_pure fun r hr => .some (hx.mono hr)

theorem tracks_branch {es : List Expr} (h : ∀ e ∈ es, Tracks p Value.Moved (e.eval f env)
      (e.eval { f with args := xs } env')) :
    Tracks p Value.Moved (Expr.eval.branch f env es) (Expr.eval.branch { f with args := xs } env' es) := by
  rcases es with _ | ⟨c, _ | ⟨a, _ | ⟨b, _ | ⟨d, es⟩⟩⟩⟩
  · exact tracks_throw
  · exact tracks_throw
  · exact tracks_throw
  · refine (h c (by simp)).bind fun q z z' hq hz => tracks_get fun r m m' hr hm => ?_
    refine (tracks_same ((hz.mono hr).truth hm.memory)).bind fun s b' _ hs hb => hb ▸ ?_
    split
    · exact (h a (by simp)).mono ((hq.trans hr).trans hs)
    · exact (h b (by simp)).mono ((hq.trans hr).trans hs)
  · exact tracks_throw

/-- An expression has a relocated value where the arrays are elsewhere, and so does the address that it stands for. -/
theorem tracks_eval (hcall : Relocatable f.call) (e : Expr) :
    ∀ (p : Relocation) (env env' : Env), ValuesMoved p f.args xs → env.Moved p env' →
    Tracks p Value.Moved (e.eval f env) (e.eval { f with args := xs } env') ∧
      ∀ es, Tracks p Value.Moved (Expr.eval.address f env (e :: es))
        (Expr.eval.address { f with args := xs } env' (e :: es)) := by
  induction e with
  | var v =>
    intro p env env' hargs henv
    refine ⟨?_, fun es => tracks_throw⟩
    simp only [Expr.eval]
    cases hv : env.get? v with
    | none => exact tracks_throw
    | some x =>
      obtain ⟨x', hx', hmoved⟩ := henv v.id x hv
      rw [show env'.get? v = some x' from hx']
      exact tracks_pure fun q hq => hmoved.mono hq
  | const x t => exact fun p env env' _ _ => ⟨tracks_convertTo t (.number x), fun es => tracks_throw⟩
  | str s => exact fun p env env' _ _ => ⟨tracks_pure fun _ _ => .text s, fun es => tracks_throw⟩
  | cast t a iha => exact fun p env env' hargs henv =>
      ⟨(iha p env env' hargs henv).1.bind fun q x x' _ hx => tracks_convertTo t hx, fun es => tracks_throw⟩
  | bin op a b iha ihb =>
    refine fun p env env' hargs henv => ⟨?_, fun es => tracks_throw⟩
    refine (iha p env env' hargs henv).1.bind fun q x x' hq hx => ?_
    refine (ihb q env env' (hargs.mono hq) (henv.mono hq)).1.bind fun r y y' hr hy => ?_
    exact tracks_combine op a.dtype (hx.mono hr) hy
  | not a iha =>
    refine fun p env env' hargs henv => ⟨?_, fun es => tracks_throw⟩
    refine (iha p env env' hargs henv).1.bind fun q x x' _ hx => (tracks_condition hx).bind fun r n _ _ h => h ▸ ?_
    exact tracks_pure fun _ _ => Value.moved_ofNumeric _
  | select c a b ihc iha ihb =>
    refine fun p env env' hargs henv => ⟨?_, fun es => tracks_throw⟩
    refine (ihc p env env' hargs henv).1.bind fun q z z' hq hz => ?_
    refine (iha q env env' (hargs.mono hq) (henv.mono hq)).1.bind fun r x x' hr hx => ?_
    refine (ihb r env env' (hargs.mono (hq.trans hr)) (henv.mono (hq.trans hr))).1.bind fun s y y' hs hy => ?_
    exact (tracks_chosen (hz.mono (hr.trans hs)) (hx.mono hs) hy).bind fun t w w' _ hw => tracks_convertTo a.dtype hw
  | call t name args kind func index ih =>
    intro p env env' hargs henv
    have hall : ∀ a ∈ args, Tracks p Value.Moved (a.eval f env) (a.eval { f with args := xs } env') := fun a ha =>
      (ih a ha p env env' hargs henv).1
    refine ⟨?_, fun es => tracks_throw⟩
    rw [Expr.eval_call, Expr.eval_call]
    split_ifs
    · exact tracks_throw
    · exact tracks_branch hall
    · cases args with
      | nil => exact tracks_throw
      | cons a as => exact (ih a List.mem_cons_self p env env' hargs henv).2 as
    · exact (tracks_evalAll hall).bind fun q ys ys' hq hys => tracks_callNamed (hargs.mono hq) hcall t name hys
  | bind v value body ihv ihb =>
    refine fun p env env' hargs henv => ⟨?_, fun es => tracks_throw⟩
    refine (ihv p env env' hargs henv).1.bind fun q x x' hq hx => (tracks_place hx).bind fun r y y' hr hy => ?_
    exact (ihb r _ _ (hargs.mono (hq.trans hr)) ((henv.mono (hq.trans hr)).set hy)).1
  | load t v index pred ihv ihi ihp =>
    intro p env env' hargs henv
    refine ⟨?_, fun es => ?_⟩
    · refine (tracks_buffer henv v).bind fun q a a' hq ha => ?_
      refine (ihi q env env' (hargs.mono hq) (henv.mono hq)).1.bind fun r i i' hr hi => ?_
      have hmask : ∀ e ∈ pred, Tracks r Value.Moved (e.eval f env) (e.eval { f with args := xs } env') := fun e he =>
        (ihp e he r env env' (hargs.mono (hq.trans hr)) (henv.mono (hq.trans hr))).1
      refine (tracks_evalMask hmask).bind fun s mask mask' hs hmask => ?_
      exact (tracks_loadFrom v (ha.mono (hr.trans hs)) (hi.mono hs) hmask).bind fun u y y' _ hy => tracks_convertTo t hy
    · refine (tracks_buffer henv v).bind fun q a a' hq ha => ?_
      refine (ihi q env env' (hargs.mono hq) (henv.mono hq)).1.bind fun r i i' hr hi => tracks_pure fun s hs => ?_
      exact .pointer (ha.mono (hr.trans hs)) (hi.mono hs)
  | ramp base stride lanes iha ihb =>
    refine fun p env env' hargs henv => ⟨?_, fun es => tracks_throw⟩
    refine (iha p env env' hargs henv).1.bind fun q x x' hq hx => ?_
    refine (ihb q env env' (hargs.mono hq) (henv.mono hq)).1.bind fun r y y' hr hy => ?_
    refine (tracks_operand (hx.mono hr)).bind fun s n _ hs h => h ▸ (tracks_operand (hy.mono hs)).bind fun t k _ _ h =>
      h ▸ ?_
    exact (tracks_same rfl).bind fun u z _ _ h => h ▸ tracks_convertTo _ (Value.moved_ofNumeric z)
  | broadcast a lanes iha => exact fun p env env' hargs henv =>
      ⟨(iha p env env' hargs henv).1.bind fun q x x' _ hx => tracks_convertTo _ hx, fun es => tracks_throw⟩
  | reduce => exact fun p env env' _ _ => ⟨tracks_throw, fun es => tracks_throw⟩

end Evaluation

end TensorNest
