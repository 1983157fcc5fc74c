import Mathlib.Data.List.Nodup
import TensorNest.Proofs.Queries
import TensorNest.Proofs.Splitting
import TensorNest.Session

/-! # Kernels found by name

The functions that are built together are told apart by their names: those that are given have to have
different names, and the kernels split off them are named for them. A launch looks its kernel up by name, first
among the host functions of its module and then among the device functions of the imported one. If no function
that is given has the name of a kernel, each launch finds the kernel of its own region. -/

namespace TensorNest

/-! ### Names in a module -/

namespace Module

variable {m : Module} {f : Func} {name : String}

theorem func?_of_mem (hnodup : (m.funcs.map (·.name)).Nodup) (hf : f ∈ m.funcs) : m.func? f.name = some f := by
  cases hfind : m.func? f.name with
  | none => simpa using List.find?_eq_none.mp hfind f (List.mem_reverse.mpr hf)
  | some e =>
    have he : e ∈ m.funcs := List.mem_reverse.mp (List.mem_of_find?_eq_some hfind)
    have hname : e.name = f.name := by simpa using List.find?_some hfind
    rw [List.inj_on_of_nodup_map hnodup he hf hname]

theorem func?_eq_none (h : ∀ f ∈ m.funcs, f.name ≠ name) : m.func? name = none :=
  List.find?_eq_none.mpr fun f hf => by simpa using h f (List.mem_reverse.mp hf)

theorem mem_of_func? (h : m.func? name = some f) : f ∈ m.funcs ∧ f.name = name :=
  ⟨List.mem_reverse.mp (List.mem_of_find?_eq_some h), by simpa using List.find?_some h⟩

end Module

/-! ### The two sides -/

namespace Assembly

variable {c : Config} {t : Target} {f F : Func} {fs : List Func} {p p' : List Func × List Func} {g g' : Graph}

/-- A mixed function in the form in which it is split, with barriers and without reductions across threads. -/
def Prepares (c : Config) (t : Target) (f F : Func) : Prop :=
  let f := if c.globalBarrier.truthy then f.insertBarriers (.text "global") else f
  ∃ g g', (((f.insertBarriers (.text "shared")).insertBarriers (.text "warp")).lowerReductions
    (t.warpSize : Int)).Yields g F g'

theorem Prepares.name (h : Prepares c t f F) : F.name = f.name := by
  obtain ⟨g, g', h⟩ := h
  simp only [Func.lowerReductions, Build.yields_bind, Build.yields_pure] at h
  obtain ⟨⟨body, r⟩, g₁, -, rfl, rfl⟩ := h
  simp only [Func.insertBarriers]
  split <;> rfl

theorem yields_splitMixed {h : Func} {ds : List Func} (hrun : (splitMixed c t f).Yields g (h, ds) g') :
    ∃ F, Prepares c t f F ∧ F.splitDevice = .ok (h, ds) := by
  simp only [splitMixed, Build.yields_bind, Build.yields_liftExcept] at hrun
  obtain ⟨F, g₁, hF, hsplit, rfl⟩ := hrun
  exact ⟨F, ⟨g, g₁, hF⟩, hsplit⟩

/-- The host functions and the device functions that a function becomes. -/
inductive Part (c : Config) (t : Target) (f : Func) : List Func → List Func → Prop
  | host (hkind : f.kind = .host) : Part c t f [f] []
  | device (hkind : f.kind = .device) : Part c t f [] [f]
  | mixed {F h ds} (hkind : f.kind = .mixed) (hprepares : Prepares c t f F) (hsplit : F.splitDevice = .ok (h, ds)) :
      Part c t f [h] ds

/-- A function with what it becomes. -/
abbrev Parts := List (Func × List Func × List Func)

theorem parts_of_sides {funcs hosts devices : List Func} (h : (sides c t funcs).Yields g (hosts, devices) g') :
    ∃ parts : Parts, parts.map (·.1) = funcs ∧ (∀ q ∈ parts, Part c t q.1 q.2.1 q.2.2) ∧
      hosts = parts.flatMap (·.2.1) ∧ devices = parts.flatMap (·.2.2) := by
  unfold sides at h
  generalize hp : (([], []) : List Func × List Func) = p at h
  suffices hmore : ∃ parts : Parts, parts.map (·.1) = funcs ∧ (∀ q ∈ parts, Part c t q.1 q.2.1 q.2.2) ∧
      hosts = p.1 ++ parts.flatMap (·.2.1) ∧ devices = p.2 ++ parts.flatMap (·.2.2) by
    subst hp
    exact hmore
  clear hp
  induction funcs generalizing p g with
  | nil =>
    obtain ⟨rfl, rfl⟩ := Build.yields_pure.mp h
    exact ⟨[], rfl, nofun, by simp⟩
  | cons f funcs ih =>
    rw [List.foldlM_cons] at h
    obtain ⟨p₁, g₁, hf, hrest⟩ := Build.yields_bind.mp h
    obtain ⟨parts, hparts, hpart, rfl, rfl⟩ := ih p₁ hrest
    have hnew : ∃ hs ds, Part c t f hs ds ∧ p₁ = (p.1 ++ hs, p.2 ++ ds) := by
      cases hkind : f.kind with
      | host =>
        simp only [hkind, Build.yields_pure] at hf
        exact ⟨[f], [], .host hkind, by simp [← hf.1]⟩
      | device =>
        simp only [hkind, Build.yields_pure] at hf
        exact ⟨[], [f], .device hkind, by simp [← hf.1]⟩
      | mixed =>
        simp only [hkind, Build.yields_bind, Build.yields_pure] at hf
        obtain ⟨⟨host, ds⟩, g₂, hsplit, rfl, -⟩ := hf
        obtain ⟨F, hF, hsplit⟩ := yields_splitMixed hsplit
        exact ⟨[host], ds, .mixed hkind hF hsplit, rfl⟩
    obtain ⟨hs, ds, hnewpart, rfl⟩ := hnew
    exact ⟨(f, hs, ds) :: parts, by rw [List.map_cons, hparts], List.forall_mem_cons.mpr ⟨hnewpart, hpart⟩,
      by simp, by simp⟩

/-- No two of some functions have one name, and none has the name of a kernel. -/
structure Apart (fs : List Func) : Prop where
  nodup : (fs.map (·.name)).Nodup
  kernel : ∀ f ∈ fs, ∀ F ∈ fs, F.kind = .mixed → ∀ n, f.name ≠ F.kernelName n

section Names
variable {hs ds : List Func} {parts : Parts}

theorem Part.host_names (h : Part c t f hs ds) : (∀ e ∈ hs, e.name = f.name) ∧ (hs.map (·.name)).Nodup := by
  cases h with
  | host => simp
  | device => simp
  | mixed hkind hprepares hsplit =>
    have hname := (Func.launches_of_split hsplit).2.2.1.trans hprepares.name
    simpa using hname

theorem Part.kind_of_host {e : Func} (h : Part c t f hs ds) (he : e ∈ hs) : f.kind ≠ .device := by
  cases h with
  | host hkind | mixed hkind => simp [hkind]
  | device => cases he

theorem Part.device_names (h : Part c t f hs ds) : (∀ d ∈ ds, d.name = f.name ∨ f.kind = .mixed ∧
      ∃ n, d.name = f.kernelName n) ∧
    (ds.map (·.name)).Nodup := by
  cases h with
  | host => simp
  | device => simp
  | @mixed F h _ hkind hprepares hsplit =>
    have hnumbered := (Func.launches_of_split hsplit).2.1
    have hnames : ∀ (n : Nat) (hn : n < ds.length), (ds[n]).name = f.kernelName n := by
      intro n hn
      obtain ⟨region, launch, hkernel⟩ := hnumbered n ds[n] (List.getElem?_eq_getElem hn)
      rw [(Func.kernel_eq hkernel).1, Func.kernelName, Func.kernelName, hprepares.name]
    refine ⟨fun d hd => ?_, ?_⟩
    · obtain ⟨n, hn, rfl⟩ := List.mem_iff_getElem.mp hd
      exact Or.inr ⟨hkind, n, hnames n hn⟩
    · rw [List.nodup_iff_injective_getElem]
      intro i j hij
      have hnames' : f.kernelName i = f.kernelName j := by
        have hi := hnames i (by simpa using i.2)
        have hj := hnames j (by simpa using j.2)
        simpa [hi, hj] using hij
      exact Fin.ext (Func.kernelName_inj hnames').2

theorem pairwise_names (hnodup : ((parts.map (·.1)).map (·.name)).Nodup) :
    parts.Pairwise fun q r => q.1.name ≠ r.1.name := by
  rw [List.map_map] at hnodup
  exact List.pairwise_map.mp hnodup

theorem nodup_hosts (hparts : ∀ q ∈ parts, Part c t q.1 q.2.1 q.2.2) (hnodup : ((parts.map (·.1)).map (·.name)).Nodup) :
    ((parts.flatMap (·.2.1)).map (·.name)).Nodup := by
  rw [List.map_flatMap, List.nodup_flatMap]
  refine ⟨fun q hq => (hparts q hq).host_names.2, (pairwise_names hnodup).imp_of_mem fun {q r} hq hr hne => ?_⟩
  intro name hname hname'
  obtain ⟨h, hh, rfl⟩ := List.mem_map.mp hname
  obtain ⟨h', hh', heq⟩ := List.mem_map.mp hname'
  exact hne (by rw [← (hparts q hq).host_names.1 h hh, ← (hparts r hr).host_names.1 h' hh', heq])

theorem nodup_devices (hparts : ∀ q ∈ parts, Part c t q.1 q.2.1 q.2.2) (happart : Apart (parts.map (·.1))) :
    ((parts.flatMap (·.2.2)).map (·.name)).Nodup := by
  rw [List.map_flatMap, List.nodup_flatMap]
  refine ⟨fun q hq => (hparts q hq).device_names.2, (pairwise_names happart.nodup).imp_of_mem fun {q r} hq hr hne => ?_⟩
  intro name hname hname'
  obtain ⟨d, hd, rfl⟩ := List.mem_map.mp hname
  obtain ⟨e, he, heq⟩ := List.mem_map.mp hname'
  have hq' := List.mem_map_of_mem (f := (·.1)) hq
  have hr' := List.mem_map_of_mem (f := (·.1)) hr
  rcases (hparts q hq).device_names.1 d hd with hd | ⟨hkind, m, hd⟩ <;>
    rcases (hparts r hr).device_names.1 e he with he | ⟨hkind', n, he⟩
  · exact hne (by rw [← hd, ← he, heq])
  · exact happart.kernel q.1 hq' r.1 hr' hkind' n (by rw [← hd, ← he, heq])
  · exact happart.kernel r.1 hr' q.1 hq' hkind m (by rw [← hd, ← he, heq])
  · exact hne (Func.kernelName_inj (by rw [← hd, ← he, heq])).1

end Names

theorem nodup_checkFunctions {items : List (Func ⊕ Operand)} (h : checkFunctions items = .ok fs) :
    (fs.map (·.name)).Nodup := by
  have hnil : (([] : List Func).map (·.name)).Nodup := List.nodup_nil
  refine foldlM_keeps (I := fun fs : List Func => (fs.map (·.name)).Nodup) (fun x _ {b b'} hb hx => ?_) hnil h
  cases x with
  | inr x => cases hx
  | inl f =>
    simp only at hx
    split at hx
    · cases hx
    · rename_i hnew
      cases hx
      rw [List.map_append, List.nodup_append]
      refine ⟨hb, List.nodup_singleton _, fun a ha c hc hac => hnew ?_⟩
      obtain ⟨e, he, rfl⟩ := List.mem_map.mp ha
      obtain rfl := List.mem_singleton.mp hc
      exact List.any_eq_true.mpr ⟨e, he, by simpa using hac⟩

/-! ### Lowering the sides -/

/-- Functions are turned into others one by one, and keep their names. -/
structure Turned (R : Func → Func → Prop) (fs gs : List Func) : Prop where
  names : gs.map (·.name) = fs.map (·.name)
  mem : ∀ f ∈ fs, ∃ g ∈ gs, g.name = f.name ∧ R f g

section Turned
variable {R S : Func → Func → Prop} {gs hs : List Func}

theorem Turned.trans (h : Turned R fs gs) (h' : Turned S gs hs) : Turned (fun f e => ∃ d, R f d ∧ S d e) fs hs where
  names := h'.names.trans h.names
  mem f hf := by
    obtain ⟨d, hd, hname, hR⟩ := h.mem f hf
    obtain ⟨e, he, hname', hS⟩ := h'.mem d hd
    exact ⟨e, he, hname'.trans hname, d, hR, hS⟩

theorem turned_of_mapM {φ : Func → Except Error Func} (hname : ∀ {f d}, φ f = .ok d → d.name = f.name)
    (hrun : fs.mapM φ = .ok gs) : Turned (fun f d => φ f = .ok d) fs gs where
  names := by
    induction fs generalizing gs with
    | nil => cases hrun; rfl
    | cons f fs ih =>
      rw [List.mapM_cons] at hrun
      obtain ⟨d, hd, hrun⟩ := bind_eq_ok.mp hrun
      obtain ⟨ds, hds, hrun⟩ := bind_eq_ok.mp hrun
      cases hrun
      rw [List.map_cons, List.map_cons, hname hd, ih hds]
  mem f hf := by
    obtain ⟨d, hd, hfd⟩ := (mem_mapM hrun).2 f hf
    exact ⟨d, hd, hname hfd, hfd⟩

theorem turned_of_build {φ : Func → Build Func} (hname : ∀ {f d g g'}, (φ f).Yields g d g' → d.name = f.name)
    (hrun : (fs.mapM φ).Yields g gs g') : Turned (fun f d => ∃ g g', (φ f).Yields g d g') fs gs := by
  induction fs generalizing gs g with
  | nil =>
    rw [List.mapM_nil, Build.yields_pure] at hrun
    obtain ⟨rfl, -⟩ := hrun
    exact ⟨rfl, nofun⟩
  | cons f fs ih =>
    simp only [List.mapM_cons, Build.yields_bind, Build.yields_pure] at hrun
    obtain ⟨d, g₁, hd, ds, g₂, hds, rfl, rfl⟩ := hrun
    obtain ⟨hnames, hmem⟩ := ih hds
    refine ⟨by rw [List.map_cons, List.map_cons, hname hd, hnames],
      List.forall_mem_cons.mpr ⟨⟨d, List.mem_cons_self, hname hd, g, g₁, hd⟩, ?_⟩⟩
    intro e he
    obtain ⟨e', he', hR⟩ := hmem e he
    exact ⟨e', List.mem_cons_of_mem d he', hR⟩

end Turned

/-- A host function is lowered for the device whose kernels it launches and for its own target. -/
def LowersHost (deviceType : Int) (target : String) (f p : Func) : Prop :=
  ∃ b, f.bindDevice deviceType = .ok b ∧ ∃ l, b.lowerHost = .ok l ∧ ∃ n, l.lowerMath target = .ok n ∧
    ∃ g g', n.combineContexts.Yields g p g'

theorem name_of_lowerMath {target : String} {f d : Func} (h : f.lowerMath target = .ok d) : d.name = f.name := by
  simp only [Func.lowerMath, bind_eq_ok] at h
  obtain ⟨k, -, body, -, heq⟩ := h
  cases heq
  rfl

theorem turned_of_lowerHosts {deviceType : Int} {target : String} {gs : List Func}
    (h : (lowerHosts deviceType target fs).Yields g gs g') : Turned (LowersHost deviceType target) fs gs := by
  simp only [lowerHosts, Build.yields_bind, Build.yields_liftExcept] at h
  obtain ⟨bs, g₁, ⟨hbs, rfl⟩, ls, g₂, ⟨hls, rfl⟩, ns, g₃, ⟨hns, rfl⟩, hps⟩ := h
  have hbound := turned_of_mapM (fun {f d} hd => by
    simp only [Func.bindDevice, bind_eq_ok] at hd
    obtain ⟨value, -, heq⟩ := hd
    cases heq
    rfl) hbs
  have hlowered := turned_of_mapM (fun {f d} hd => by
    simp only [Func.lowerHost, bind_eq_ok] at hd
    obtain ⟨⟨body, r⟩, -, heq⟩ := hd
    cases heq
    rfl) hls
  have hnamed := turned_of_mapM name_of_lowerMath hns
  have hcombined := turned_of_build (fun {f d g g'} hd => by
    simp only [Func.combineContexts, Build.yields_bind, Build.yields_pure] at hd
    obtain ⟨⟨body, cache⟩, g₁, -, rfl, -⟩ := hd
    rfl) hps
  have hall := hbound.trans (hlowered.trans (hnamed.trans hcombined))
  exact hall

theorem yields_unless {α : Type} {cond : Prop} [Decidable cond] {e : Error} {x : Build α} {a : α}
    (h : (if cond then (throw e : Build PUnit) >>= fun _ => x else x).Yields g a g') : x.Yields g a g' := by
  split at h
  · obtain ⟨_, _, hthrow, -⟩ := Build.yields_bind.mp h
    exact absurd hthrow Build.not_yields_throw
  · exact h

/-- The functions of an assembly come from the parts of its source. -/
theorem parts_of_ofItems {items : List (Func ⊕ Operand)} {config : ConfigSpec} {target host : String} {a : Assembly}
    (h : (ofItems items config target host).Yields g a g') :
    ∃ (c : Config) (T : Target) (parts : Parts), config.resolve = .ok c ∧ Target.parse target = .ok T ∧
      (a.source.map (·.name)).Nodup ∧ parts.map (·.1) = a.source ∧ (∀ q ∈ parts, Part c T q.1 q.2.1 q.2.2) ∧
      Turned (LowersHost T.deviceType host) (parts.flatMap (·.2.1)) a.host ∧
      Turned (fun f d => f.lowerMath target = .ok d) (parts.flatMap (·.2.2)) a.device := by
  simp only [ofItems, Build.yields_bind, Build.yields_liftExcept] at h
  obtain ⟨c, g₁, ⟨hc, rfl⟩, source, g₂, ⟨hsource, rfl⟩, T, g₃, ⟨hT, rfl⟩, H, g₄, ⟨hH, rfl⟩, ⟨hosts, devices⟩, g₅, hsides,
    h⟩ := h
  have hlower := yields_unless (yields_unless h)
  simp only [Build.yields_bind, Build.yields_liftExcept, Build.yields_pure] at hlower
  obtain ⟨lowered, g₆, hhosts, kernels, g₇, ⟨hdevices, rfl⟩, rfl, -⟩ := hlower
  obtain ⟨parts, hparts, hpart, rfl, rfl⟩ := parts_of_sides hsides
  exact ⟨c, T, parts, hc, hT, nodup_checkFunctions hsource, hparts, hpart, turned_of_lowerHosts hhosts,
    turned_of_mapM name_of_lowerMath hdevices⟩

end Assembly

/-! ### Launches -/

namespace Expr

variable {f : Frame} {env : Env} {name : String} {args : List Expr} {e : Entry} {resolve : String → Except Error Entry}

theorem lowerLaunches_launchCall : (Func.launchCall name args).lowerLaunches =
    intrinsic .int32 "xte_call_packed_lowered"
      (intrinsic .handle "xte_thread_context" [intrinsic .handle "xte_get_func_from_env" [.str name]] ::
        args.map lowerLaunches) := by
  show (Func.launchCall name args).rebuild lowerLaunch = _
  rw [Func.launchCall, intrinsic, callOf, rebuild_call]
  rfl

theorem eval_context (hresolve : f.resolve = some resolve) (hname : resolve name = .ok e) :
    (intrinsic .handle "xte_thread_context" [intrinsic .handle "xte_get_func_from_env" [.str name]]).eval f env =
      pure (.function e) := by
  have hlookup : (intrinsic .handle "xte_get_func_from_env" [.str name]).eval f env = pure (.function e) := by
    rw [eval_intrinsic (i := .getFunc) rfl]
    show (do return .function (← f.function (.text name)) : Run Value) = _
    rw [function_text hresolve hname, pure_bind]
  rw [eval_intrinsic (i := .threadContext) rfl, eval.evalAll, hlookup]
  rfl

/-- A lowered launch calls the function that its module has under its name, with the values of its arguments. -/
theorem eval_launchCall (hresolve : f.resolve = some resolve) (hname : resolve name = .ok e) :
    (Func.launchCall name args).lowerLaunches.eval f env = (do
      let xs ← eval.evalAll f env (args.map lowerLaunches)
      f.invoke e xs) := by
  rw [lowerLaunches_launchCall, eval_intrinsic (i := .callPacked) rfl, eval.evalAll, eval_context hresolve hname]
  simp only [pure_bind, bind_assoc]
  rfl

end Expr

/-! ### The modules -/

theorem Module.build_eq {funcs : List Func} {target start : String} {name : Option String} {m : Module}
    (h : build funcs target start name = .ok m) : m.funcs = funcs ∧ m.imports = [] := by
  simp only [build, bind_eq_ok] at h
  obtain ⟨info, -, _, -, heq⟩ := h
  cases heq
  exact ⟨rfl, rfl⟩

namespace Modules

variable {ms : Modules} {id : Nat} {m d : Module} {f : Func} {name : String}

theorem entry_eq_ok {e : Entry} (hm : ms[id]? = some m) :
    ms.entry id name false = .ok e ↔ e.module = id ∧ m.func? name = some e.func := by
  have hfind : ms.find? id name false = (m.func? name).map fun f => ⟨id, f⟩ := by
    cases hf : m.func? name <;> simp [find?, hm, hf]
  rw [entry, hfind]
  cases hf : m.func? name with
  | none => simp
  | some f =>
    obtain ⟨i, f'⟩ := e
    simp [eq_comm]

/-- Code of a module calls the function of an imported module if it has none of this name itself. -/
theorem resolve_imported {i : Nat} (hm : ms[id]? = some m) (himports : m.imports = [i]) (hd : ms[i]? = some d)
    (hown : m.func? name = none) (hf : d.func? name = some f) : ms.resolve id name = .ok ⟨i, f⟩ := by
  simp [resolve, find?, hm, himports, hown, hd, hf]

/-- A statement launches a function: the call that it is lowered to, in code of a module, calls the function with the
    values of its arguments. -/
def Calls (ms : Modules) (id : Nat) (launch : Stmt) (e : Entry) : Prop :=
  ∃ name args, launch = .eval (Func.launchCall name args) ∧ ∀ (f : Frame) (env : Env), f.resolve = some (ms.resolve id) →
    (Func.launchCall name args).lowerLaunches.eval f env = (do
      let xs ← Expr.eval.evalAll f env (args.map Expr.lowerLaunches)
      f.invoke e xs)

end Modules

namespace Session

variable {t t' : Session} {g g' : Graph} {items : List (Func ⊕ Operand)} {r : BuildRequest} {H : Nat} {a : Assembly}

theorem yields_addModule {m : Module} {id : Nat} :
    (addModule m).Yields t g id t' g' ↔ id = t.modules.size ∧ t' = { t with modules := t.modules.push m } ∧ g = g' := by
  simp only [addModule, Edit.yields_bind, Edit.yields_get, Edit.yields_modify, Edit.yields_pure]
  grind

theorem modules_of_buildItems (h : (buildItems items r).Yields t g (H, a) t' g') :
    (∃ g₁, (Assembly.ofItems items r.config r.target r.host).Yields g a g₁) ∧ ∃ m, m.funcs = a.host ∧
      t'.modules[H]? = some m ∧ (a.device = [] ∨ ∃ d, d.funcs = a.device ∧ m.imports = [H + 1] ∧
        t'.modules[H + 1]? = some d) := by
  simp only [buildItems, Edit.yields_bind, Edit.yields_liftBuild, Edit.yields_liftExcept, yields_addModule] at h
  obtain ⟨b, s₁, g₁, ⟨hb, rfl⟩, m, s₂, g₂, ⟨hm, rfl, rfl⟩, id, s₃, g₃, ⟨rfl, rfl, rfl⟩, h⟩ := h
  obtain ⟨hfuncs, himports⟩ := Module.build_eq hm
  split at h
  · simp only [Edit.yields_bind, Edit.yields_liftExcept, yields_addModule, Edit.yields_modify, Edit.yields_pure] at h
    obtain ⟨d, s₄, g₄, ⟨hd, rfl, rfl⟩, id, s₅, g₅, ⟨rfl, rfl, rfl⟩, _, s₆, g₆, ⟨rfl, rfl⟩, heq, rfl, rfl⟩ := h
    cases heq
    have hhost : ((t.modules.push m).push d)[t.modules.size]? = some m := by
      rw [Array.getElem?_push_lt (by simp)]
      simp
    have hdevice : ((t.modules.push m).push d)[t.modules.size + 1]? = some d := by
      have hlast : ((t.modules.push m).push d)[(t.modules.push m).size]? = some d := Array.getElem?_push_size
      simpa using hlast
    refine ⟨⟨_, hb⟩, { m with imports := m.imports ++ [t.modules.size + 1] }, hfuncs, ?_,
      Or.inr ⟨d, (Module.build_eq hd).1, ?_, ?_⟩⟩
    · rw [Modules.importInto, Array.getElem?_modify, if_pos rfl, hhost, Option.map_some, Array.size_push]
    · simp [himports]
    · simp only [Modules.importInto, Array.size_push, Array.getElem?_modify, hdevice]
      simp
  · rename_i hempty
    obtain ⟨heq, rfl, rfl⟩ := Edit.yields_pure.mp h
    cases heq
    exact ⟨⟨_, hb⟩, m, hfuncs, by simp, Or.inl (by simpa using hempty)⟩

/-- If no function that is given has the name of a kernel, the host module has, under the name of each host function
    and each mixed one, what that function becomes on the host, and nothing else; and in place of each outermost
    thread region of a mixed function stands the launch that calls the kernel of this very region. -/
theorem kernels_linked (h : (buildItems items r).Yields t g (H, a) t' g')
    (hnames : ∀ f ∈ a.source, ∀ F ∈ a.source, F.kind = .mixed → ∀ n, f.name ≠ F.kernelName n) :
    ∃ c T, r.config.resolve = .ok c ∧ Target.parse r.target = .ok T ∧
      (∀ name e, t'.modules.entry H name false = .ok e → ∃ f ∈ a.source, f.kind ≠ .device ∧ f.name = name) ∧
      (∀ f ∈ a.source, f.kind = .host → ∃ p, Assembly.LowersHost T.deviceType r.host f p ∧
        t'.modules.entry H f.name false = .ok ⟨H, p⟩) ∧
      ∀ f ∈ a.source, f.kind = .mixed → ∃ F h ds p, Assembly.Prepares c T f F ∧ F.splitDevice = .ok (h, ds) ∧
        Assembly.LowersHost T.deviceType r.host h p ∧ t'.modules.entry H f.name false = .ok ⟨H, p⟩ ∧
        Func.Launches F ds F.body h.body ∧
        ∀ n region d launch, F.kernel n region = .ok (d, launch) → ds[n]? = some d →
          d.body = region ∧ ∃ d', d.lowerMath r.target = .ok d' ∧ t'.modules.Calls H launch ⟨H + 1, d'⟩ := by
  obtain ⟨⟨g₁, ha⟩, m, hfuncs, hm, himports⟩ := modules_of_buildItems h
  obtain ⟨c, T, parts, hc, hT, hnodup, hparts, hpart, hhosts, hdevices⟩ := Assembly.parts_of_ofItems ha
  rw [← hparts] at hnodup hnames ⊢
  have hnodupHosts : (m.funcs.map (·.name)).Nodup := by
    rw [hfuncs, hhosts.names]
    exact Assembly.nodup_hosts hpart hnodup
  have horigin : ∀ e ∈ m.funcs, ∃ q ∈ parts, q.1.kind ≠ .device ∧ q.1.name = e.name := by
    intro e he
    have hname := List.mem_map_of_mem (f := (·.name)) (hfuncs ▸ he)
    rw [hhosts.names] at hname
    obtain ⟨h, hh, hname⟩ := List.mem_map.mp hname
    obtain ⟨q, hq, hh⟩ := List.mem_flatMap.mp hh
    exact ⟨q, hq, (hpart q hq).kind_of_host hh, ((hpart q hq).host_names.1 h hh).symm.trans hname⟩
  have hentry : ∀ q ∈ parts, ∀ h ∈ q.2.1, ∃ p, Assembly.LowersHost T.deviceType r.host h p ∧
      t'.modules.entry H q.1.name false = .ok ⟨H, p⟩ := by
    intro q hq h hh
    obtain ⟨p, hp, hname, hlowers⟩ := hhosts.mem h (List.mem_flatMap.mpr ⟨q, hq, hh⟩)
    have hfind := Module.func?_of_mem hnodupHosts (hfuncs ▸ hp)
    rw [hname, (hpart q hq).host_names.1 h hh] at hfind
    exact ⟨p, hlowers, (Modules.entry_eq_ok hm).mpr ⟨rfl, hfind⟩⟩
  refine ⟨c, T, hc, hT, fun name e he => ?_, fun f hf hkind => ?_, fun f hf hkind => ?_⟩
  · obtain ⟨hmem, hname⟩ := Module.mem_of_func? ((Modules.entry_eq_ok hm).mp he).2
    obtain ⟨q, hq, hkind, hq'⟩ := horigin e.func hmem
    exact ⟨q.1, List.mem_map_of_mem hq, hkind, hq'.trans hname⟩
  · obtain ⟨⟨f, hs, ds⟩, hq, rfl⟩ := List.mem_map.mp hf
    have hp : Assembly.Part c T f hs ds := hpart _ hq
    cases hp with
    | host => exact hentry _ hq f (List.mem_singleton_self f)
    | device hdevice => exact absurd (hdevice.symm.trans hkind) (by decide)
    | mixed hmixed => exact absurd (hmixed.symm.trans hkind) (by decide)
  · obtain ⟨⟨f, hs, ds⟩, hq, rfl⟩ := List.mem_map.mp hf
    have hp : Assembly.Part c T f hs ds := hpart _ hq
    cases hp with
    | host hhost => exact absurd (hhost.symm.trans hkind) (by decide)
    | device hdevice => exact absurd (hdevice.symm.trans hkind) (by decide)
    | @mixed F h _ _ hprepares hsplit =>
      obtain ⟨p, hlowers, hp⟩ := hentry _ hq h (List.mem_singleton_self h)
      refine ⟨F, h, ds, p, hprepares, hsplit, hlowers, hp, (Func.launches_of_split hsplit).1, ?_⟩
      intro n region d launch hkernel hd
      obtain ⟨hname, hbody, -, -, axes, extents, -, -, -, rfl⟩ := Func.kernel_eq hkernel
      obtain ⟨d', hd', hname', hlower⟩ := hdevices.mem d (List.mem_flatMap.mpr ⟨_, hq, List.mem_of_getElem? hd⟩)
      have hkernelName : d.name = f.kernelName n := by
        rw [hname, Func.kernelName, Func.kernelName, hprepares.name]
      have hown : m.func? d.name = none := Module.func?_eq_none fun e he heq => by
        obtain ⟨q, hq', -, hname⟩ := horigin e he
        exact hnames q.1 (List.mem_map_of_mem hq') f hf hkind n (by rw [hname, heq, hkernelName])
      rcases himports with hnone | ⟨dm, hdm, himports, hdevice⟩
      · rw [hnone] at hd'
        cases hd'
      · have hnodupDevices : (dm.funcs.map (·.name)).Nodup := by
          rw [hdm, hdevices.names]
          exact Assembly.nodup_devices hpart ⟨hnodup, hnames⟩
        have hfind := Module.func?_of_mem hnodupDevices (hdm ▸ hd')
        rw [hname'] at hfind
        have hresolve := Modules.resolve_imported hm himports hdevice hown hfind
        exact ⟨hbody, d', hlower, d.name, _, rfl, fun f env hf => Expr.eval_launchCall hf hresolve⟩

namespace Single

def block : IterVar := ⟨none, ⟨1, "blockIdx.x", .int32⟩, .threadIndex, "blockIdx.x"⟩

def data : Var := ⟨2, "A", .handle⟩

/-- `A[0] = 7` in one thread. -/
def region : Stmt :=
  .attr (.axis block) "thread_extent" (Expr.int32 1) (.store (.var data) (Expr.int32 7) (Expr.int32 0) none)

def mixed : Func := { name := "f", params := [.var data], body := region, kind := .mixed }

/-- What building `f` for a GPU gives and leaves behind. -/
def built : (Nat × Assembly) × Session × Graph :=
  match (buildItems [.inl mixed] { target := "cuda" }).outcome {} {} with
  | ((.ok x, t), g) => (x, t, g)
  | _ => default

theorem built_yields : (buildItems [.inl mixed] { target := "cuda" }).Yields {} {} (built.1.1,
      built.1.2) built.2.1 built.2.2 := by
  rfl

theorem links_kernel : (∀ f ∈ built.1.2.source, ∀ F ∈ built.1.2.source, F.kind = .mixed → ∀ n, f.name ≠ F.kernelName n) ∧
    ∃ F h ds p, F.splitDevice = .ok (h, ds) ∧ built.2.1.modules.entry 0 "f" false = .ok ⟨0, p⟩ ∧
      Func.Launches F ds F.body h.body := by
  have hsource : built.1.2.source = [mixed] := by rfl
  have hnames : ∀ f ∈ built.1.2.source, ∀ F ∈ built.1.2.source, F.kind = .mixed → ∀ n, f.name ≠ F.kernelName n := by
    rw [hsource]
    intro f hf F hF _ n hname
    obtain rfl := List.mem_singleton.mp hf
    obtain rfl := List.mem_singleton.mp hF
    have happend : mixed.name = mixed.name ++ "_kernel" ++ toString n := hname
    have hlength := congrArg String.length happend
    simp only [String.length_append] at hlength
    have hkernel : "_kernel".length = 7 := rfl
    omega
  obtain ⟨c, T, -, -, -, -, hmixed⟩ := kernels_linked built_yields hnames
  have hmem : mixed ∈ built.1.2.source := hsource ▸ List.mem_singleton_self mixed
  obtain ⟨F, h, ds, p, -, hsplit, -, hentry, hlaunches, -⟩ := hmixed mixed hmem rfl
  exact ⟨hnames, F, h, ds, p, hsplit, hentry, hlaunches⟩

end Single

end Session

end TensorNest
