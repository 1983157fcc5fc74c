import TensorNest.Lowering.HostCalls
import TensorNest.Lowering.Launch
import TensorNest.Proofs.Edit
import TensorNest.Proofs.Parts

/-! # Splitting functions

A function is split into what runs on the host and its kernels: each outermost thread region becomes a
device function, and in its place stands the launch of this function under its name. The names of kernels
tell them apart: no two kernels of one function have one name, nor have two of functions of different names. -/

namespace TensorNest

namespace Func

variable {F G : Func} {m n : Nat} {region launch : Stmt} {d : Func}

/-! ### Names of kernels -/

/-- The name of the `n`-th kernel of a function. -/
def kernelName (F : Func) (n : Nat) : String :=
  s!"{F.name}_kernel{n}"

theorem digits_of_append {s s' ds ds' : List Char} {c : Char} (hc : c.isDigit = false) (hds : ∀ x ∈ ds, x.isDigit = true)
    (hds' : ∀ x ∈ ds', x.isDigit = true) (h : s ++ c :: ds = s' ++ c :: ds') : s = s' ∧ ds = ds' := by
  have hdigits : ∀ {s ds : List Char}, (∀ x ∈ ds, x.isDigit = true) →
      (s ++ c :: ds).reverse.takeWhile Char.isDigit = ds.reverse := by
    intro s ds hds
    rw [List.reverse_append, List.reverse_cons, List.append_assoc, List.takeWhile_append_of_pos (by simpa using hds)]
    simp [hc]
  have hend : ds = ds' := List.reverse_inj.mp (by rw [← hdigits hds, h, hdigits hds'])
  subst hend
  exact ⟨List.append_cancel_right h, rfl⟩

theorem toList_kernelName (F : Func) (n : Nat) :
    (F.kernelName n).toList = (F.name.toList ++ "_kerne".toList) ++ 'l' :: Nat.toDigits 10 n := by
  show (F.name ++ "_kernel" ++ toString n).toList = _
  simp [String.toList_append]

theorem kernelName_inj (h : F.kernelName m = G.kernelName n) : F.name = G.name ∧ m = n := by
  have hdigits : ∀ n : Nat, ∀ c ∈ Nat.toDigits 10 n, c.isDigit = true := fun _ _ hc =>
    Nat.isDigit_of_mem_toDigits (by decide) (by decide) hc
  have hsame := congrArg String.toList h
  rw [toList_kernelName, toList_kernelName] at hsame
  obtain ⟨hname, hnumber⟩ := digits_of_append (by decide) (hdigits m) (hdigits n) hsame
  refine ⟨String.toList_inj.mp (List.append_cancel_right hname), ?_⟩
  rw [← Nat.ofDigitChars_ten_toDigits (n := m), hnumber, Nat.ofDigitChars_ten_toDigits]

/-! ### Kernels -/

/-- The parameters of a kernel: the free variables of its region, handles first. -/
def kernelParams (region : Stmt) : List Var :=
  region.freeVars.filter (·.dtype.isHandle) ++ region.freeVars.filter (!·.dtype.isHandle)

/-- The launch of the function of a name with arguments. -/
def launchCall (name : String) (args : List Expr) : Expr :=
  Expr.intrinsic .int32 "xte_call_device" (.str name :: args)

/-- A kernel has its region as its body, and it is launched with the variables that are its parameters, followed by
    one extent for each of its thread axes. -/
theorem kernel_eq (h : F.kernel n region = .ok (d, launch)) :
    d.name = F.kernelName n ∧ d.body = region ∧ d.kind = .device ∧ d.params = (kernelParams region).map .var ∧
      ∃ axes extents, LaunchAxes.ofStmt region = .ok axes ∧ (axes.mapM fun x => x.2.2.simplify) = .ok extents ∧
        d.threadAxes = axes.map (·.2.1) ∧
        launch = .eval (launchCall d.name ((kernelParams region).map .var ++ extents)) := by
  simp only [kernel, bind_eq_ok] at h
  obtain ⟨axes, haxes, extents, hextents, heq⟩ := h
  cases heq
  exact ⟨rfl, rfl, rfl, rfl, axes, extents, haxes, hextents, rfl, rfl⟩

/-- In place of each outermost thread region of a statement stands the launch of its kernel, which is among given
    functions, at its number. The rest of the statement is the same. -/
inductive Launches (F : Func) (ds : List Func) : Stmt → Stmt → Prop
  | region {subject value body n d launch} (hkernel : F.kernel n (.attr subject "thread_extent" value body) =
      .ok (d, launch))
      (hmem : ds[n]? = some d) : Launches F ds (.attr subject "thread_extent" value body) launch
  | leaf {s} (h : s.bodies = []) : Launches F ds s s
  | bind {v value s s'} (h : Launches F ds s s') : Launches F ds (.bind v value s) (.bind v value s')
  | attr {subject key value s s'} (hkey : key ≠ "thread_extent") (h : Launches F ds s s') :
      Launches F ds (.attr subject key value s) (.attr subject key value s')
  | assert {cond message s s'} (h : Launches F ds s s') : Launches F ds (.assert cond message s) (.assert cond message s')
  | loop {v min extent kind s s'} (h : Launches F ds s s') : Launches F ds (.loop v min extent kind s)
    (.loop v min extent kind s')
  | allocate {site v t extents cond s s'} (h : Launches F ds s s') :
      Launches F ds (.allocate site v t extents cond s) (.allocate site v t extents cond s')
  | realize {op output t bounds cond s s'} (h : Launches F ds s s') :
      Launches F ds (.realize op output t bounds cond s) (.realize op output t bounds cond s')
  | seq {s s' ss ss'} (h : Launches F ds s s') (hs : Launches F ds (.seq ss) (.seq ss')) :
      Launches F ds (.seq (s :: ss)) (.seq (s' :: ss'))
  | onlyTrue {cond s s'} (h : Launches F ds s s') : Launches F ds (.branch cond s none) (.branch cond s' none)
  | branch {cond s s' t t'} (h : Launches F ds s s') (ht : Launches F ds t t') :
      Launches F ds (.branch cond s (some t)) (.branch cond s' (some t'))

/-- Each of some functions is the kernel of its number. -/
def Numbered (F : Func) (ds : List Func) : Prop :=
  ∀ n d, ds[n]? = some d → ∃ region launch, F.kernel n region = .ok (d, launch)

variable {ds ds' : List Func} {s s' : Stmt}

theorem Launches.append (h : Launches F ds s s') (more : List Func) : Launches F (ds ++ more) s s' := by
  induction h with
  | region hkernel hmem =>
    obtain ⟨hlt, -⟩ := List.getElem?_eq_some_iff.mp hmem
    exact .region hkernel ((List.getElem?_append_left hlt).trans hmem)
  | leaf h => exact .leaf h
  | bind _ ih => exact .bind ih
  | attr hkey _ ih => exact .attr hkey ih
  | assert _ ih => exact .assert ih
  | loop _ ih => exact .loop ih
  | allocate _ ih => exact .allocate ih
  | realize _ ih => exact .realize ih
  | seq _ _ ih ihs => exact .seq ih ihs
  | onlyTrue _ ih => exact .onlyTrue ih
  | branch _ _ ih iht => exact .branch ih iht

theorem Numbered.append (h : Numbered F ds) (hkernel : F.kernel ds.length region = .ok (d, launch)) :
    Numbered F (ds ++ [d]) := by
  intro n e hn
  by_cases hlt : n < ds.length
  · exact h n e ((List.getElem?_append_left hlt).symm.trans hn)
  · rw [List.getElem?_append_right (Nat.le_of_not_lt hlt)] at hn
    obtain ⟨hzero, rfl⟩ := List.getElem?_eq_some_iff.mp hn
    have hend : n = ds.length := by simp at hzero; omega
    subst hend
    exact ⟨region, launch, by simpa using hkernel⟩

/-- The splitting of a statement, which finds the kernels `ds` and leaves `ds'`. -/
structure Splits (F : Func) (ds ds' : List Func) (s s' : Stmt) : Prop where
  more : ∃ new, ds' = ds ++ new
  numbered : Numbered F ds → Numbered F ds'
  launches : Launches F ds' s s'

theorem run_bind_eq_ok {α β : Type} {x : Split α} {k : α → Split β} {b : β} :
    (x >>= k).run ds = .ok (b, ds') ↔ ∃ a ds₁, x.run ds = .ok (a, ds₁) ∧ (k a).run ds₁ = .ok (b, ds') := by
  rw [StateT.run_bind, bind_eq_ok]
  exact ⟨fun ⟨(a, ds₁), h⟩ => ⟨a, ds₁, h⟩, fun ⟨a, ds₁, h⟩ => ⟨(a, ds₁), h⟩⟩

theorem run_pure_eq_ok {α : Type} {a b : α} : (pure a : Split α).run ds = .ok (b, ds') ↔ a = b ∧ ds = ds' := by
  show Except.ok (a, ds) = Except.ok (b, ds') ↔ _
  simp

theorem run_lift_eq_ok {α : Type} {x : Except Error α} {a : α} :
    (liftM x : Split α).run ds = .ok (a, ds') ↔ x = .ok a ∧ ds = ds' := by
  show (x >>= fun a => .ok (a, ds)) = .ok (a, ds') ↔ _
  cases x <;> simp [bind, Except.bind]

theorem splits_region {subject : Subject} {value : Expr} {body : Stmt}
    (h : (F.splitRegion (.attr subject "thread_extent" value body)).run ds = .ok (s', ds')) :
    Splits F ds ds' (.attr subject "thread_extent" value body) s' := by
  obtain ⟨_, _, hget, h⟩ := run_bind_eq_ok.mp h
  cases hget
  obtain ⟨⟨d, launch⟩, _, hlift, h⟩ := run_bind_eq_ok.mp h
  obtain ⟨hkernel, rfl⟩ := run_lift_eq_ok.mp hlift
  obtain ⟨_, _, hset, h⟩ := run_bind_eq_ok.mp h
  cases hset
  cases h
  exact ⟨⟨[d], rfl⟩, fun hds => hds.append hkernel, .region hkernel (by simp)⟩

/-- A statement with one body is split as its body is. -/
theorem splits_body {c : Stmt} {put : Stmt → Stmt} (h : (do return put (← F.splitStmt s) : Split Stmt).run ds =
      .ok (s', ds'))
    (hbody : ∀ {t}, (F.splitStmt s).run ds = .ok (t, ds') → Splits F ds ds' s t)
    (hput : ∀ {t}, Launches F ds' s t → Launches F ds' c (put t)) : Splits F ds ds' c s' := by
  obtain ⟨t, _, ht, heq⟩ := run_bind_eq_ok.mp h
  obtain ⟨rfl, rfl⟩ := run_pure_eq_ok.mp heq
  exact ⟨(hbody ht).more, (hbody ht).numbered, hput (hbody ht).launches⟩

theorem Splits.two {ds₁ : List Func} {t t' c c' : Stmt} (hs : Splits F ds ds₁ s s') (ht : Splits F ds₁ ds' t t')
    (hc : Launches F ds' s s' → Launches F ds' t t' → Launches F ds' c c') : Splits F ds ds' c c' := by
  obtain ⟨new, rfl⟩ := hs.more
  obtain ⟨new', rfl⟩ := ht.more
  exact ⟨⟨_, List.append_assoc _ _ _⟩, fun h => ht.numbered (hs.numbered h), hc (hs.launches.append new') ht.launches⟩

theorem splits_leaf (h : s.bodies = []) : Splits F ds ds s s :=
  ⟨⟨[], (List.append_nil ds).symm⟩, id, .leaf h⟩

theorem splits_stmt (h : (F.splitStmt s).run ds = .ok (s', ds')) : Splits F ds ds' s s' := by
  induction s generalizing ds ds' s' with
  | bind v value body ih => exact splits_body h ih .bind
  | attr subject key value body ih =>
    by_cases hkey : key = "thread_extent"
    · subst hkey
      exact splits_region h
    · rw [splitStmt, if_neg (by simpa using hkey)] at h
      exact splits_body h ih (.attr hkey)
  | assert cond message body ih => exact splits_body h ih .assert
  | loop v min extent kind body ih => exact splits_body h ih .loop
  | allocate site v t extents cond body ih => exact splits_body h ih .allocate
  | realize op output t bounds cond body ih => exact splits_body h ih .realize
  | seq ss ih =>
    obtain ⟨ts, _, hts, heq⟩ := run_bind_eq_ok.mp h
    obtain ⟨rfl, rfl⟩ := run_pure_eq_ok.mp heq
    clear h heq
    induction ss generalizing ds ts with
    | nil =>
      obtain ⟨rfl, rfl⟩ := run_pure_eq_ok.mp hts
      exact splits_leaf rfl
    | cons s ss ihs =>
      obtain ⟨t, ds₁, ht, hts⟩ := run_bind_eq_ok.mp hts
      obtain ⟨us, _, hus, heq⟩ := run_bind_eq_ok.mp hts
      obtain ⟨rfl, rfl⟩ := run_pure_eq_ok.mp heq
      exact (ih s List.mem_cons_self ht).two (ihs (fun u hu => ih u (List.mem_cons_of_mem s hu)) us hus) .seq
  | branch cond onTrue onFalse ih ihf =>
    cases onFalse with
    | none => exact splits_body h ih .onlyTrue
    | some onFalse =>
      obtain ⟨t, ds₁, ht, h⟩ := run_bind_eq_ok.mp h
      obtain ⟨u, _, hu, heq⟩ := run_bind_eq_ok.mp h
      obtain ⟨rfl, rfl⟩ := run_pure_eq_ok.mp heq
      exact (ih ht).two (ihf onFalse rfl hu) .branch
  | store | provide | prefetch | eval =>
    obtain ⟨rfl, rfl⟩ := run_pure_eq_ok.mp h
    exact splits_leaf rfl

/-- What a function is split into. -/
theorem launches_of_split {host : Func} (h : F.splitDevice = .ok (host, ds)) :
    Launches F ds F.body host.body ∧ Numbered F ds ∧ host.name = F.name ∧ host.kind = .host := by
  obtain ⟨⟨body, _⟩, hsplit, heq⟩ := bind_eq_ok.mp h
  cases heq
  have hs : Splits F [] ds F.body body := splits_stmt hsplit
  exact ⟨hs.launches, hs.numbered fun n d hd => by simp at hd, rfl, rfl⟩

end Func

end TensorNest
