import TensorNest.Schedule.Stage

/-! # Successful runs

Computations that build operations (`Build`) and computations that also change a state (`Edit`) can
fail. `Yields` says that a run succeeds, with its result and what it leaves behind. A run of several
steps is read step by step: there is one equivalence for each way of putting computations together and
for each primitive step, so that a run is taken apart by `simp`. -/

namespace TensorNest

variable {σ τ α β : Type}

theorem bind_eq_ok {ε : Type} {x : Except ε α} {f : α → Except ε β} {b : β} :
    (x >>= f) = .ok b ↔ ∃ a, x = .ok a ∧ f a = .ok b := by
  cases x <;> simp [bind, Except.bind]

/-- What each step of a fold keeps, the fold keeps. -/
theorem foldlM_keeps {ε : Type} {I : β → Prop} {f : β → α → Except ε β} {l : List α} {b b' : β}
    (step : ∀ x ∈ l, ∀ {b b'}, I b → f b x = .ok b' → I b') (h : I b) (hrun : l.foldlM f b = .ok b') :
    I b' := by
  induction l generalizing b with
  | nil => exact Except.ok.inj hrun ▸ h
  | cons x l ih =>
    rw [List.foldlM_cons] at hrun
    obtain ⟨b₁, hx, hl⟩ := bind_eq_ok.mp hrun
    exact ih (fun y hy => step y (List.mem_cons_of_mem x hy)) (step x List.mem_cons_self h hx) hl

/-- The results of a mapped computation are those of its steps. -/
theorem mem_mapM {ε : Type} {f : α → Except ε β} {l : List α} {ys : List β} (hrun : l.mapM f = .ok ys) :
    (∀ y ∈ ys, ∃ x ∈ l, f x = .ok y) ∧ ∀ x ∈ l, ∃ y ∈ ys, f x = .ok y := by
  induction l generalizing ys with
  | nil =>
    cases hrun
    exact ⟨List.forall_mem_nil _, List.forall_mem_nil _⟩
  | cons x l ih =>
    rw [List.mapM_cons] at hrun
    obtain ⟨y, hy, hrun⟩ := bind_eq_ok.mp hrun
    obtain ⟨ys, hys, hrun⟩ := bind_eq_ok.mp hrun
    cases hrun
    obtain ⟨hfrom, hto⟩ := ih hys
    refine ⟨List.forall_mem_cons.mpr ⟨⟨x, List.mem_cons_self, hy⟩, fun z hz => ?_⟩,
      List.forall_mem_cons.mpr ⟨⟨y, List.mem_cons_self, hy⟩, fun z hz => ?_⟩⟩
    · obtain ⟨w, hw, heq⟩ := hfrom z hz
      exact ⟨w, List.mem_cons_of_mem x hw, heq⟩
    · obtain ⟨w, hw, heq⟩ := hto z hz
      exact ⟨w, List.mem_cons_of_mem y hw, heq⟩

theorem mapM_eq_map {ε : Type} {f : α → Except ε β} {h : α → β} {l : List α} {ys : List β}
    (step : ∀ x ∈ l, ∀ y, f x = .ok y → y = h x) (hrun : l.mapM f = .ok ys) : ys = l.map h := by
  induction l generalizing ys with
  | nil =>
    cases hrun
    rfl
  | cons x l ih =>
    rw [List.mapM_cons] at hrun
    obtain ⟨y, hy, hrun⟩ := bind_eq_ok.mp hrun
    obtain ⟨ys, hys, hrun⟩ := bind_eq_ok.mp hrun
    cases hrun
    rw [List.map_cons, step x List.mem_cons_self y hy, ih (fun z hz => step z (List.mem_cons_of_mem x hz)) hys]

theorem length_mapM {ε : Type} {f : α → Except ε β} {l : List α} {ys : List β} (hrun : l.mapM f = .ok ys) :
    ys.length = l.length := by
  induction l generalizing ys with
  | nil =>
    cases hrun
    rfl
  | cons x l ih =>
    rw [List.mapM_cons] at hrun
    obtain ⟨y, -, hrun⟩ := bind_eq_ok.mp hrun
    obtain ⟨ys, hys, hrun⟩ := bind_eq_ok.mp hrun
    cases hrun
    rw [List.length_cons, ih hys, List.length_cons]

/-- A computation on the graph `g` succeeds with the result `a` and leaves the graph `g'`. -/
def Build.Yields (x : Build α) (g : Graph) (a : α) (g' : Graph) : Prop :=
  (x.run.run g).run = (.ok a, g')

/-- A computation on the state `s` and the graph `g` succeeds with the result `a` and leaves `s'` and
    `g'`. -/
def Edit.Yields (x : Edit σ α) (s : σ) (g : Graph) (a : α) (s' : σ) (g' : Graph) : Prop :=
  ((x.run.run s).run g).run = ((.ok a, s'), g')

/-- The result of a run on the state `s` and the graph `g`, and what it leaves behind. -/
def Edit.outcome (x : Edit σ α) (s : σ) (g : Graph) : (Except Error α × σ) × Graph :=
  ((x.run.run s).run g).run

/-! ### Building -/

namespace Build
variable {g g' : Graph}

@[simp] theorem yields_pure {a b : α} : (pure a : Build α).Yields g b g' ↔ a = b ∧ g = g' := by
  show ((.ok a, g) : Except Error α × Graph) = (.ok b, g') ↔ _
  simp

@[simp] theorem yields_bind {x : Build α} {f : α → Build β} {b : β} :
    (x >>= f).Yields g b g' ↔ ∃ a g₁, x.Yields g a g₁ ∧ (f a).Yields g₁ b g' := by
  simp only [Yields, ExceptT.run, bind, ExceptT.bind, ExceptT.mk, StateT.bind, StateT.run, Id.run]
  rcases x g with ⟨_ | a, g₁⟩
  · show ((.error _, g₁) : Except Error β × Graph) = _ ↔ ∃ a g₂, ((.error _, g₁) : Except Error α × Graph) = _ ∧ _
    simp
  · show (f a g₁ : Except Error β × Graph) = _ ↔ ∃ a' g₂, ((.ok a, g₁) : Except Error α × Graph) = _ ∧ _
    simp [and_assoc]

@[simp] theorem yields_map {x : Build α} {f : α → β} {b : β} :
    (f <$> x).Yields g b g' ↔ ∃ a, x.Yields g a g' ∧ f a = b := by
  rw [map_eq_pure_bind, yields_bind]
  simp only [yields_pure]
  grind

@[simp] theorem yields_get {a : Graph} : (get : Build Graph).Yields g a g' ↔ g = a ∧ g = g' := by
  show ((.ok g, g) : Except Error Graph × Graph) = (.ok a, g') ↔ _
  simp

@[simp] theorem yields_set {g₁ : Graph} {u : PUnit} :
    (set g₁ : Build PUnit).Yields g u g' ↔ g₁ = g' := by
  show ((.ok ⟨⟩, g₁) : Except Error PUnit × Graph) = (.ok u, g') ↔ _
  simp

@[simp] theorem not_yields_throw {e : Error} {a : α} : ¬(throw e : Build α).Yields g a g' := by
  show ¬((.error e, g) : Except Error α × Graph) = (.ok a, g')
  simp

@[simp] theorem yields_liftExcept {x : Except Error α} {a : α} :
    (liftM x : Build α).Yields g a g' ↔ x = .ok a ∧ g = g' := by
  show ((x, g) : Except Error α × Graph) = (.ok a, g') ↔ _
  simp

theorem yields_foldlM_lift {f : β → α → Except Error β} {l : List α} {b b' : β} :
    (l.foldlM (fun b x => (liftM (f b x) : Build β)) b).Yields g b' g' ↔
      l.foldlM f b = .ok b' ∧ g = g' := by
  induction l generalizing b with
  | nil =>
    rw [List.foldlM_nil, List.foldlM_nil, yields_pure]
    exact and_congr_left fun _ => ⟨fun h => h ▸ rfl, fun h => Except.ok.inj h⟩
  | cons x l ih =>
    simp only [List.foldlM_cons, yields_bind, yields_liftExcept, bind_eq_ok]
    grind

end Build

@[simp] theorem yields_freshNumber {g g' : Graph} {n : Nat} :
    freshNumber.Yields g n g' ↔ n = g.next ∧ g' = { g with next := g.next + 1 } := by
  simp only [freshNumber, Build.yields_bind, Build.yields_get, Build.yields_set, Build.yields_pure]
  grind

@[simp] theorem yields_freshVar {name : String} {t : DataType} {g g' : Graph} {v : Var} :
    (freshVar name t).Yields g v g' ↔ v = ⟨g.next, name, t⟩ ∧ g' = { g with next := g.next + 1 } := by
  simp only [freshVar, Build.yields_bind, yields_freshNumber, Build.yields_pure]
  grind

@[simp] theorem yields_addOperation {name tag : String} {attrs : List (String × Nat)}
    {d : Except Error Definition} {g g' : Graph} {o : Operation} :
    (addOperation name tag attrs d).Yields g o g' ↔
      ∃ d', d = .ok d' ∧ o = ⟨g.ops.size, name, tag, attrs, d'⟩ ∧
        g' = { g with ops := g.ops.push (some o) } := by
  simp only [addOperation, Build.yields_bind, Build.yields_get]
  cases d with
  | error e => simp
  | ok d =>
    simp only [Build.yields_bind, Build.yields_set, Build.yields_pure]
    grind

/-! ### Editing -/

namespace Edit
variable {s s' : σ} {g g' : Graph}

/-- A run that does not fail yields what it leaves behind. -/
theorem yields_outcome {x : Edit σ Unit} (h : (x.outcome s g).1.1.isOk) :
    x.Yields s g () (x.outcome s g).1.2 (x.outcome s g).2 := by
  rcases hx : x.outcome s g with ⟨⟨_ | u, s₁⟩, g₁⟩
  · rw [hx] at h
    cases h
  · exact hx

@[simp] theorem yields_pure {a b : α} :
    (pure a : Edit σ α).Yields s g b s' g' ↔ a = b ∧ s = s' ∧ g = g' := by
  show (((.ok a, s), g) : (Except Error α × σ) × Graph) = ((.ok b, s'), g') ↔ _
  simp [and_assoc]

@[simp] theorem yields_bind {x : Edit σ α} {f : α → Edit σ β} {b : β} :
    (x >>= f).Yields s g b s' g' ↔
      ∃ a s₁ g₁, x.Yields s g a s₁ g₁ ∧ (f a).Yields s₁ g₁ b s' g' := by
  simp only [Yields, ExceptT.run, bind, ExceptT.bind, ExceptT.mk, StateT.bind, StateT.run, Id.run]
  rcases x s g with ⟨⟨_ | a, s₁⟩, g₁⟩
  · show (((.error _, s₁), g₁) : (Except Error β × σ) × Graph) = _ ↔
      ∃ a s₂ g₂, (((.error _, s₁), g₁) : (Except Error α × σ) × Graph) = _ ∧ _
    simp
  · show (f a s₁ g₁ : (Except Error β × σ) × Graph) = _ ↔
      ∃ a' s₂ g₂, (((.ok a, s₁), g₁) : (Except Error α × σ) × Graph) = _ ∧ _
    simp [and_assoc]

@[simp] theorem yields_map {x : Edit σ α} {f : α → β} {b : β} :
    (f <$> x).Yields s g b s' g' ↔ ∃ a, x.Yields s g a s' g' ∧ f a = b := by
  rw [map_eq_pure_bind, yields_bind]
  simp only [yields_pure]
  grind

@[simp] theorem yields_discard {x : Edit σ α} {u : PUnit} :
    (discard x).Yields s g u s' g' ↔ ∃ a, x.Yields s g a s' g' := by
  show ((fun _ => ⟨⟩) <$> x : Edit σ PUnit).Yields s g u s' g' ↔ _
  simp

@[simp] theorem yields_get {a : σ} :
    (get : Edit σ σ).Yields s g a s' g' ↔ s = a ∧ s = s' ∧ g = g' := by
  show (((.ok s, s), g) : (Except Error σ × σ) × Graph) = ((.ok a, s'), g') ↔ _
  simp [and_assoc]

@[simp] theorem yields_set {s₁ : σ} {u : PUnit} :
    (set s₁ : Edit σ PUnit).Yields s g u s' g' ↔ s₁ = s' ∧ g = g' := by
  show (((.ok ⟨⟩, s₁), g) : (Except Error PUnit × σ) × Graph) = ((.ok u, s'), g') ↔ _
  simp

@[simp] theorem yields_modify {f : σ → σ} {u : PUnit} :
    (modify f : Edit σ PUnit).Yields s g u s' g' ↔ f s = s' ∧ g = g' := by
  show (((.ok ⟨⟩, f s), g) : (Except Error PUnit × σ) × Graph) = ((.ok u, s'), g') ↔ _
  simp

@[simp] theorem not_yields_throw {e : Error} {a : α} :
    ¬(throw e : Edit σ α).Yields s g a s' g' := by
  show ¬(((.error e, s), g) : (Except Error α × σ) × Graph) = ((.ok a, s'), g')
  simp

@[simp] theorem yields_liftExcept {x : Except Error α} {a : α} :
    (liftM x : Edit σ α).Yields s g a s' g' ↔ x = .ok a ∧ s = s' ∧ g = g' := by
  show (((x, s), g) : (Except Error α × σ) × Graph) = ((.ok a, s'), g') ↔ _
  simp [and_assoc]

@[simp] theorem yields_liftBuild {x : Build α} {a : α} :
    (liftM x : Edit σ α).Yields s g a s' g' ↔ x.Yields g a g' ∧ s = s' := by
  show ((((x g).1, s), (x g).2) : (Except Error α × σ) × Graph) = ((.ok a, s'), g') ↔
    ((x g : Except Error α × Graph) = (.ok a, g')) ∧ s = s'
  rcases x g with ⟨r, g₁⟩
  show (((r, s), g₁) : (Except Error α × σ) × Graph) = ((.ok a, s'), g') ↔
    (((r, g₁) : Except Error α × Graph) = (.ok a, g')) ∧ s = s'
  grind

/-- A change of a part of the state succeeds with what it does to the part. -/
@[simp] theorem yields_onPart {part : τ} {put : τ → σ → σ} {x : Edit τ α} {a : α} :
    (onPart part put x).Yields s g a s' g' ↔
      ∃ part', x.Yields part g a part' g' ∧ put part' s = s' := by
  show ((((x part g).1.1, put (x part g).1.2 s), (x part g).2) : (Except Error α × σ) × Graph) = _ ↔
    ∃ part', (x part g : (Except Error α × τ) × Graph) = ((.ok a, part'), g') ∧ _
  rcases x part g with ⟨⟨r, part'⟩, g₁⟩
  show (((r, put part' s), g₁) : (Except Error α × σ) × Graph) = _ ↔
    ∃ part'', (((r, part'), g₁) : (Except Error α × τ) × Graph) = _ ∧ _
  grind

/-! A step at the start of a run leaves one state behind, so that it can be taken off the run. -/

section Starts
variable {b : β}

theorem yields_get_bind {f : σ → Edit σ β} : ((get : Edit σ σ) >>= f).Yields s g b s' g' ↔
    (f s).Yields s g b s' g' := Iff.rfl

theorem yields_pure_bind {a : α} {f : α → Edit σ β} : ((pure a : Edit σ α) >>= f).Yields s g b s' g' ↔
    (f a).Yields s g b s' g' := Iff.rfl

theorem yields_set_bind {s₁ : σ} {f : PUnit → Edit σ β} : ((set s₁ : Edit σ PUnit) >>= f).Yields s g b s' g' ↔
    (f ⟨⟩).Yields s₁ g b s' g' := Iff.rfl

theorem yields_modify_bind {m : σ → σ} {f : PUnit → Edit σ β} :
    ((modify m : Edit σ PUnit) >>= f).Yields s g b s' g' ↔ (f ⟨⟩).Yields (m s) g b s' g' := Iff.rfl

theorem not_yields_throw_bind {e : Error} {f : α → Edit σ β} :
    ¬((throw e : Edit σ α) >>= f).Yields s g b s' g' := by
  show ¬(((.error e, s), g) : (Except Error β × σ) × Graph) = ((.ok b, s'), g')
  simp

theorem yields_liftExcept_bind {x : Except Error α} {f : α → Edit σ β} :
    ((liftM x : Edit σ α) >>= f).Yields s g b s' g' ↔ ∃ a, x = .ok a ∧ (f a).Yields s g b s' g' := by
  simp only [yields_bind, yields_liftExcept]
  grind

theorem yields_liftBuild_bind {x : Build α} {f : α → Edit σ β} : ((liftM x : Edit σ α) >>= f).Yields s g b s' g' ↔
    ∃ a g₁, x.Yields g a g₁ ∧ (f a).Yields s g₁ b s' g' := by
  simp only [yields_bind, yields_liftBuild]
  grind

/-- A step whose result does not matter. -/
theorem yields_check_bind {x : Except Error α} {f : PUnit → Edit σ β} :
    (discard (liftM x : Edit σ α) >>= f).Yields s g b s' g' ↔ (∃ a, x = .ok a) ∧ (f ⟨⟩).Yields s g b s' g' := by
  cases x with
  | error e =>
    show (((.error e, s), g) : (Except Error β × σ) × Graph) = ((.ok b, s'), g') ↔ _
    simp
  | ok a => exact ⟨fun h => ⟨⟨a, rfl⟩, h⟩, fun h => h.2⟩

theorem yields_freshVar_bind {name : String} {t : DataType} {f : Var → Edit σ β} :
    ((liftM (freshVar name t) : Edit σ Var) >>= f).Yields s g b s' g' ↔
      (f ⟨g.next, name, t⟩).Yields s { g with next := g.next + 1 } b s' g' := Iff.rfl

end Starts

@[simp] theorem yields_forM_nil {f : α → Edit σ PUnit} {u : PUnit} :
    (([] : List α).forM f).Yields s g u s' g' ↔ s = s' ∧ g = g' := by
  show (pure ⟨⟩ : Edit σ PUnit).Yields s g u s' g' ↔ _
  simp

@[simp] theorem yields_forM_cons {f : α → Edit σ PUnit} {x : α} {xs : List α} {u : PUnit} :
    ((x :: xs).forM f).Yields s g u s' g' ↔
      ∃ s₁ g₁, (f x).Yields s g ⟨⟩ s₁ g₁ ∧ (xs.forM f).Yields s₁ g₁ u s' g' := by
  show (f x >>= fun _ => xs.forM f).Yields s g u s' g' ↔ _
  rw [yields_bind]
  exact ⟨fun ⟨⟨⟩, h⟩ => h, fun h => ⟨⟨⟩, h⟩⟩

theorem yields_mapM_lift {f : α → Build β} {xs : List α} {ys : List β} :
    (xs.mapM fun x => (liftM (f x) : Edit σ β)).Yields s g ys s' g' ↔
      (xs.mapM f).Yields g ys g' ∧ s = s' := by
  induction xs generalizing g g' ys with
  | nil =>
    simp only [List.mapM_nil, yields_pure, Build.yields_pure]
    grind
  | cons x xs ih =>
    simp only [List.mapM_cons, yields_bind, yields_liftBuild, Build.yields_bind, yields_pure,
      Build.yields_pure]
    grind

/-- What each step of a run over a list keeps, the run keeps. -/
theorem forM_keeps {I : σ → Graph → Prop} {f : α → Edit σ PUnit} {xs : List α} {u : PUnit}
    (step : ∀ x ∈ xs, ∀ {s s' g g' v}, I s g → (f x).Yields s g v s' g' → I s' g') (h : I s g)
    (hrun : (xs.forM f).Yields s g u s' g') : I s' g' := by
  induction xs generalizing s g with
  | nil =>
    obtain ⟨rfl, rfl⟩ := yields_forM_nil.mp hrun
    exact h
  | cons x xs ih =>
    obtain ⟨s₁, g₁, hx, hxs⟩ := yields_forM_cons.mp hrun
    exact ih (fun y hy => step y (List.mem_cons_of_mem x hy)) (step x List.mem_cons_self h hx) hxs

/-- Checks that pass change nothing. -/
theorem yields_forM_check {c : α → Prop} [DecidablePred c] {err : α → Error} {xs : List α} {u : PUnit} :
    (xs.forM fun x => (if c x then throw (err x) else pure ⟨⟩ : Edit σ PUnit)).Yields s g u s' g' ↔
      (∀ x ∈ xs, ¬c x) ∧ s = s' ∧ g = g' := by
  induction xs with
  | nil => simp
  | cons x xs ih =>
    rw [yields_forM_cons]
    by_cases hx : c x
    · simp [hx]
    · simp only [hx, if_false, yields_pure, List.forall_mem_cons, not_false_eq_true, true_and, ← ih]
      grind

/-! ### Failing runs -/

/-- A computation on the state `s` and the graph `g` fails with the error `e` and leaves `s'` and `g'`. -/
def Fails (x : Edit σ α) (s : σ) (g : Graph) (e : Error) (s' : σ) (g' : Graph) : Prop :=
  ((x.run.run s).run g).run = ((.error e, s'), g')

section Fails
variable {e : Error}

@[simp] theorem not_fails_pure {a : α} : ¬(pure a : Edit σ α).Fails s g e s' g' := by
  show ¬(((.ok a, s), g) : (Except Error α × σ) × Graph) = ((.error e, s'), g')
  simp

@[simp] theorem fails_bind {x : Edit σ α} {f : α → Edit σ β} : (x >>= f).Fails s g e s' g' ↔
    x.Fails s g e s' g' ∨ ∃ a s₁ g₁, x.Yields s g a s₁ g₁ ∧ (f a).Fails s₁ g₁ e s' g' := by
  simp only [Fails, Yields, ExceptT.run, bind, ExceptT.bind, ExceptT.mk, StateT.bind, StateT.run, Id.run]
  rcases x s g with ⟨⟨e₁ | a, s₁⟩, g₁⟩
  · show (((.error e₁, s₁), g₁) : (Except Error β × σ) × Graph) = _ ↔
      (((.error e₁, s₁), g₁) : (Except Error α × σ) × Graph) = _ ∨
        ∃ a s₂ g₂, (((.error e₁, s₁), g₁) : (Except Error α × σ) × Graph) = _ ∧ _
    simp
  · show (f a s₁ g₁ : (Except Error β × σ) × Graph) = _ ↔
      (((.ok a, s₁), g₁) : (Except Error α × σ) × Graph) = _ ∨
        ∃ a' s₂ g₂, (((.ok a, s₁), g₁) : (Except Error α × σ) × Graph) = _ ∧ _
    simp [and_assoc]

@[simp] theorem fails_map {x : Edit σ α} {f : α → β} : (f <$> x).Fails s g e s' g' ↔ x.Fails s g e s' g' := by
  rw [map_eq_pure_bind, fails_bind]
  simp

@[simp] theorem fails_discard {x : Edit σ α} : (discard x).Fails s g e s' g' ↔ x.Fails s g e s' g' := by
  show ((fun _ => ⟨⟩) <$> x : Edit σ PUnit).Fails s g e s' g' ↔ _
  simp

@[simp] theorem not_fails_set {s₁ : σ} : ¬(set s₁ : Edit σ PUnit).Fails s g e s' g' := by
  show ¬(((.ok ⟨⟩, s₁), g) : (Except Error PUnit × σ) × Graph) = ((.error e, s'), g')
  simp

@[simp] theorem not_fails_modify {f : σ → σ} : ¬(modify f : Edit σ PUnit).Fails s g e s' g' := by
  show ¬(((.ok ⟨⟩, f s), g) : (Except Error PUnit × σ) × Graph) = ((.error e, s'), g')
  simp

@[simp] theorem fails_throw {e₁ : Error} : (throw e₁ : Edit σ α).Fails s g e s' g' ↔ e₁ = e ∧ s = s' ∧ g = g' := by
  show (((.error e₁, s), g) : (Except Error α × σ) × Graph) = ((.error e, s'), g') ↔ _
  simp [and_assoc]

@[simp] theorem fails_liftExcept {x : Except Error α} :
    (liftM x : Edit σ α).Fails s g e s' g' ↔ x = .error e ∧ s = s' ∧ g = g' := by
  show (((x, s), g) : (Except Error α × σ) × Graph) = ((.error e, s'), g') ↔ _
  simp [and_assoc]

theorem fails_get_bind {f : σ → Edit σ β} : ((get : Edit σ σ) >>= f).Fails s g e s' g' ↔
    (f s).Fails s g e s' g' := Iff.rfl

theorem fails_pure_bind {a : α} {f : α → Edit σ β} : ((pure a : Edit σ α) >>= f).Fails s g e s' g' ↔
    (f a).Fails s g e s' g' := Iff.rfl

theorem fails_set_bind {s₁ : σ} {f : PUnit → Edit σ β} : ((set s₁ : Edit σ PUnit) >>= f).Fails s g e s' g' ↔
    (f ⟨⟩).Fails s₁ g e s' g' := Iff.rfl

theorem fails_modify_bind {m : σ → σ} {f : PUnit → Edit σ β} :
    ((modify m : Edit σ PUnit) >>= f).Fails s g e s' g' ↔ (f ⟨⟩).Fails (m s) g e s' g' := Iff.rfl

theorem fails_freshVar_bind {name : String} {t : DataType} {f : Var → Edit σ β} :
    ((liftM (freshVar name t) : Edit σ Var) >>= f).Fails s g e s' g' ↔
      (f ⟨g.next, name, t⟩).Fails s { g with next := g.next + 1 } e s' g' := Iff.rfl

theorem fails_throw_bind {e₁ : Error} {f : α → Edit σ β} :
    ((throw e₁ : Edit σ α) >>= f).Fails s g e s' g' ↔ e₁ = e ∧ s = s' ∧ g = g' := by
  show (((.error e₁, s), g) : (Except Error β × σ) × Graph) = ((.error e, s'), g') ↔ _
  simp [and_assoc]

theorem fails_liftExcept_bind {x : Except Error α} {f : α → Edit σ β} :
    ((liftM x : Edit σ α) >>= f).Fails s g e s' g' ↔
      (x = .error e ∧ s = s' ∧ g = g') ∨ ∃ a, x = .ok a ∧ (f a).Fails s g e s' g' := by
  simp only [fails_bind, fails_liftExcept, yields_liftExcept]
  grind

/-- A failing step at the start of a run, whose result does not matter. -/
theorem fails_check_bind {x : Except Error α} {f : PUnit → Edit σ β} :
    (discard (liftM x : Edit σ α) >>= f).Fails s g e s' g' ↔
      (x = .error e ∧ s = s' ∧ g = g') ∨ (∃ a, x = .ok a) ∧ (f ⟨⟩).Fails s g e s' g' := by
  simp only [fails_bind, fails_discard, fails_liftExcept, yields_discard, yields_liftExcept]
  constructor
  · rintro (h | ⟨⟨⟩, _, _, ⟨a, ha, rfl, rfl⟩, hf⟩)
    · exact Or.inl h
    · exact Or.inr ⟨⟨a, ha⟩, hf⟩
  · rintro (h | ⟨⟨a, ha⟩, hf⟩)
    · exact Or.inl h
    · exact Or.inr ⟨⟨⟩, s, g, ⟨a, ha, rfl, rfl⟩, hf⟩

theorem fails_forM_check {c : α → Prop} [DecidablePred c] {err : α → Error} {xs : List α}
    (h : (xs.forM fun x => (if c x then throw (err x) else pure ⟨⟩ : Edit σ PUnit)).Fails s g e s' g') : s' = s := by
  induction xs with
  | nil => exact absurd h not_fails_pure
  | cons x xs ih =>
    have h : ((if c x then throw (err x) else pure ⟨⟩ : Edit σ PUnit) >>= fun _ => xs.forM _).Fails s g e s' g' := h
    by_cases hx : c x
    · rw [if_pos hx] at h
      exact (fails_throw_bind.mp h).2.1.symm
    · rw [if_neg hx] at h
      exact ih h

/-- What fails does not succeed. -/
theorem not_yields_of_fails {x : Edit σ α} {a : α} {s₁ : σ} {g₁ : Graph} (h : x.Fails s g e s' g') :
    ¬x.Yields s g a s₁ g₁ := fun hyields => by
  rw [Fails, hyields] at h
  cases h

theorem fails_outcome {x : Edit σ α} (h : (x.outcome s g).1.1.isOk = false) :
    ∃ e, x.Fails s g e (x.outcome s g).1.2 (x.outcome s g).2 := by
  rcases hx : x.outcome s g with ⟨⟨e | a, s₁⟩, g₁⟩
  · exact ⟨e, hx⟩
  · rw [hx] at h
    cases h

/-- A change of a part of the state fails with what it does to the part. -/
theorem fails_onPart {part : τ} {put : τ → σ → σ} {x : Edit τ α} : (onPart part put x).Fails s g e s' g' ↔
    ∃ part', x.Fails part g e part' g' ∧ put part' s = s' := by
  show ((((x part g).1.1, put (x part g).1.2 s), (x part g).2) : (Except Error α × σ) × Graph) = _ ↔
    ∃ part', (x part g : (Except Error α × τ) × Graph) = ((.error e, part'), g') ∧ _
  rcases x part g with ⟨⟨r, part'⟩, g₁⟩
  show (((r, put part' s), g₁) : (Except Error α × σ) × Graph) = _ ↔
    ∃ part'', (((r, part'), g₁) : (Except Error α × τ) × Graph) = _ ∧ _
  grind

end Fails

end Edit

end TensorNest
