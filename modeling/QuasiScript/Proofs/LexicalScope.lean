import QuasiScript.Proofs.Partwise
import QuasiScript.Proofs.Scopes

/-!
# Assignments are checked by lexical scope

An emission performs some parts of a program in a scope (`Performs`): if it succeeds, the scope sees the names bound in
these parts outside all inner scopes, none of which it had before, and every target among them was visible where it
stands; if it fails because a name is undeclared, that name was not visible at a target. Emissions one after the other
perform their parts one after the other (`Performs.bind_of_ok`), and one in a new scope performs what the function or loop
around that scope binds (`performs_scope`), so a program performs all its nodes (`nodes_performs`).
-/
namespace QuasiScript
open Dialect (standard)

namespace Emit
open Binding

/-! ## Performing parts of a program -/

/-- A name is visible at a place in some parts: it was visible before them, or it is bound there. -/
def VisibleAt (d : Dialect) (T : ScopeTable) (id : Int) (ps : List Part) (scopes : List Node) (pos : Position)
    (name : String) : Prop :=
  T.declares id name = true ∨ BoundAt d ps scopes pos name

structure Performed (d : Dialect) (id : Int) (ps : List Part) (T T' : ScopeTable) : Prop where
  wellFormed : T'.WellFormed
  extended : T.Extends id T'
  declares_iff : ∀ name, T'.declares id name = true ↔
    T.declares id name = true ∨ ∃ t, Within d ps [] .binder (.leaf (.symbol name) t)
  fresh : ∀ name t, Within d ps [] .binder (.leaf (.symbol name) t) → T.local? id name = none
  visible : ∀ scopes n, Within d ps scopes .target n →
    ∃ name t, n = .leaf (.symbol name) t ∧ VisibleAt d T id ps scopes t.pos (baseName name)

/-- An undeclared name is not visible at the target where the error is. -/
def Missed (d : Dialect) (id : Int) (ps : List Part) (T : ScopeTable) (e : CompileError) : Prop :=
  ∀ v, e.cause = .undeclared v → ∃ scopes name t, Within d ps scopes .target (.leaf (.symbol name) t) ∧
    t.pos = e.pos ∧ baseName name = v ∧ ¬ VisibleAt d T id ps scopes t.pos v

def Outcome {α : Type} (d : Dialect) (id : Int) (ps : List Part) (T : ScopeTable) :
    Except CompileError α × ScopeTable → Prop
  | (.ok _, T') => Performed d id ps T T'
  | (.error e, _) => Missed d id ps T e

/-- **An emission performs parts of a program in a scope.** -/
def Performs {α : Type} (d : Dialect) (id : Int) (m : Emit α) (ps : List Part) : Prop :=
  Ordered ps → ∀ T : ScopeTable, T.WellFormed → (T.scope? id).isSome → Outcome d id ps T (exec m T)

section Order
variable {d : Dialect} {id : Int} {ps ps' : List Part} {T T' : ScopeTable} {scopes : List Node} {pos : Position}
  {name : String}

/-- What comes later binds nothing earlier. -/
theorem visibleAt_append_left (h : Ordered (ps ++ ps')) (hpos : pos ∈ places ps) :
    VisibleAt d T id (ps ++ ps') scopes pos name ↔ VisibleAt d T id ps scopes pos name := by
  constructor
  · rintro (hT | ⟨around, t, hin, hbefore, haround⟩)
    · exact .inl hT
    · rcases within_append.1 hin with hin | hin
      · exact .inr ⟨around, t, hin, hbefore, haround⟩
      · exact absurd rfl (hbefore.trans (h.before hpos hin.leaf_mem_places)).ne
  · rintro (hT | hbound)
    · exact .inl hT
    · exact .inr hbound.append_left

/-- After some parts were performed, their binders are visible, except those of inner scopes. -/
theorem Performed.visibleAt_append (hT : Performed d id ps T T') (h : Ordered (ps ++ ps')) {role : Role} {n : Node}
    (hn : Within d ps' scopes role n) (hpos : pos ∈ n.positions) :
    VisibleAt d T id (ps ++ ps') scopes pos name ↔ VisibleAt d T' id ps' scopes pos name := by
  constructor
  · rintro (hdecl | ⟨around, t, hin, hbefore, haround⟩)
    · exact .inl ((hT.declares_iff name).2 (.inl hdecl))
    · rcases within_append.1 hin with hin | hin
      · cases around with
        | nil => exact .inl ((hT.declares_iff name).2 (.inr ⟨t, hin⟩))
        | cons s rest =>
          -- the scope around the binder would be among the later parts too
          have hs : s ∈ scopes := haround.subset (List.mem_cons_self ..)
          have hleaf : t.pos ∈ s.positions :=
            (hin.mem_scope s (List.mem_cons_self ..)).1 t.pos (List.mem_singleton_self _)
          have hlater : t.pos ∈ places ps' := (hn.mem_scope s hs).2 t.pos hleaf
          exact absurd rfl (h.before hin.leaf_mem_places hlater).ne
      · exact .inr ⟨around, t, hin, hbefore, haround⟩
  · rintro (hdecl | hbound)
    · rcases (hT.declares_iff name).1 hdecl with hdecl | ⟨t, hin⟩
      · exact .inl hdecl
      · refine .inr ⟨[], t, within_append.2 (.inl hin), ?_, List.nil_suffix⟩
        exact h.before hin.leaf_mem_places (hn.mem_places hpos)
    · exact .inr hbound.append_right

theorem Performed.trans {T'' : ScopeTable} (h : Ordered (ps ++ ps')) (hT : Performed d id ps T T')
    (hT' : Performed d id ps' T' T'') : Performed d id (ps ++ ps') T T'' where
  wellFormed := hT'.wellFormed
  extended := hT.extended.trans hT'.extended
  declares_iff name := by
    rw [hT'.declares_iff, hT.declares_iff, or_assoc, ← exists_or]
    simp only [within_append]
  fresh name t hin := by
    rcases within_append.1 hin with hin | hin
    · exact hT.fresh name t hin
    · exact hT.extended.local?_eq_none (hT'.fresh name t hin)
  visible scopes n hin := by
    rcases within_append.1 hin with hin | hin
    · obtain ⟨name, t, rfl, hvis⟩ := hT.visible scopes n hin
      exact ⟨name, t, rfl, (visibleAt_append_left h hin.leaf_mem_places).2 hvis⟩
    · obtain ⟨name, t, rfl, hvis⟩ := hT'.visible scopes n hin
      exact ⟨name, t, rfl, (hT.visibleAt_append h hin (List.mem_singleton_self _)).2 hvis⟩

theorem Missed.append_left {e : CompileError} (h : Ordered (ps ++ ps')) (he : Missed d id ps T e) :
    Missed d id (ps ++ ps') T e := by
  intro v hv
  obtain ⟨scopes, name, t, hin, hpos, hname, hvis⟩ := he v hv
  refine ⟨scopes, name, t, within_append.2 (.inl hin), hpos, hname, ?_⟩
  rwa [visibleAt_append_left h hin.leaf_mem_places]

theorem Missed.append_right {e : CompileError} (h : Ordered (ps ++ ps')) (hT : Performed d id ps T T')
    (he : Missed d id ps' T' e) : Missed d id (ps ++ ps') T e := by
  intro v hv
  obtain ⟨scopes, name, t, hin, hpos, hname, hvis⟩ := he v hv
  refine ⟨scopes, name, t, within_append.2 (.inr hin), hpos, hname, ?_⟩
  rwa [hT.visibleAt_append h hin (List.mem_singleton_self _)]

end Order

section Value
variable {d : Dialect} {id id' : Int} {T T' : ScopeTable} {n : Node}

/-- If inside a node the same names are visible as outside, they are visible at the same places. -/
theorem visibleAt_value {inner : List Node} {pos : Position} {name : String}
    (hsees : T'.declares id' name = T.declares id name) :
    VisibleAt d T id [(.value, n)] (inner ++ scope d n) pos name ↔ VisibleAt d T' id' (parts d n) inner pos name := by
  rw [VisibleAt, VisibleAt, boundAt_value, hsees]

theorem Missed.value {e : CompileError} (hsees : ∀ name, T'.declares id' name = T.declares id name)
    (he : Missed d id' (parts d n) T' e) : Missed d id [(.value, n)] T e := by
  intro v hv
  obtain ⟨inner, name, t, hin, hpos, hname, hvis⟩ := he v hv
  refine ⟨inner ++ scope d n, name, t, (within_value (by decide)).2 ⟨inner, rfl, hin⟩, hpos, hname, ?_⟩
  rwa [visibleAt_value (hsees v)]

theorem Performed.visible_value {T'' : ScopeTable} (hT : Performed d id' (parts d n) T' T'')
    (hsees : ∀ name, T'.declares id' name = T.declares id name) :
    ∀ scopes x, Within d [(.value, n)] scopes .target x →
      ∃ name t, x = .leaf (.symbol name) t ∧ VisibleAt d T id [(.value, n)] scopes t.pos (baseName name) := by
  intro scopes x hx
  obtain ⟨inner, rfl, hin⟩ := (within_value (by decide)).1 hx
  obtain ⟨name, t, rfl, hvis⟩ := hT.visible inner x hin
  exact ⟨name, t, rfl, (visibleAt_value (hsees _)).2 hvis⟩

end Value

section Performs
variable {α β : Type} {d : Dialect} {id : Int} {ps ps' : List Part}

theorem performs_pure (a : α) : Performs d id (pure a) [] := by
  intro _ T hT _
  refine ⟨hT, .refl T id, fun name => ?_, fun name t h => absurd h not_within_nil,
    fun scopes n h => absurd h not_within_nil⟩
  simp [not_within_nil]

theorem performs_fail {p : Position} {c : CompileCause} (hc : c.undeclared? = none) :
    Performs d id (fail p c : Emit α) ps := by
  intro _ T _ _ v hv
  obtain rfl : c = .undeclared v := hv
  cases hc

theorem Performs.bind_of_ok {m : Emit α} {k : α → Emit β} (h : Performs d id m ps)
    (hk : ∀ a T T', exec m T = (.ok a, T') → Performs d id (k a) ps') : Performs d id (m >>= k) (ps ++ ps') := by
  intro hord T hT hid
  rw [exec_bind]
  have hm := h hord.left T hT hid
  rcases hexec : exec m T with ⟨r, T'⟩
  rw [hexec] at hm
  cases r with
  | error e => exact Missed.append_left hord hm
  | ok a =>
    have hm : Performed d id ps T T' := hm
    have hka := hk a T T' hexec hord.right T' hm.wellFormed (hm.extended.isSome hid)
    dsimp only
    generalize exec (k a) T' = outcome at hka ⊢
    obtain ⟨r, T''⟩ := outcome
    cases r with
    | error e => exact Missed.append_right hord hm hka
    | ok b => exact Performed.trans hord hm hka

/-- A node performs its parts. -/
theorem Performs.value {m : Emit α} {n : Node} (h : Performs d id m (parts d n)) (hn : scope d n = []) :
    Performs d id m [(.value, n)] := by
  intro hord T hT hid
  have hm := h (hord.parts (List.mem_singleton_self _)) T hT hid
  generalize exec m T = outcome at hm ⊢
  obtain ⟨r, T'⟩ := outcome
  cases r with
  | error e => exact Missed.value (fun _ => rfl) hm
  | ok a =>
    refine ⟨hm.wellFormed, hm.extended, fun name => ?_, fun name t h => ?_, hm.visible_value fun _ => rfl⟩
    · rw [hm.declares_iff]
      simp only [within_value (show Role.binder ≠ .value by decide), hn, List.append_nil, exists_eq_left']
    · obtain ⟨inner, hinner, hin⟩ := (within_value (by decide)).1 h
      rw [hn, List.append_nil] at hinner
      subst hinner
      exact hm.fresh name t hin

/-- **A scope of its own**: what is bound in it is seen from inside only. -/
theorem performs_scope {n : Node} (hn : scope d n = [n]) {body : Int → Emit α}
    (h : ∀ id', Performs d id' (body id') (parts d n)) : Performs d id (enter id >>= body) [(.value, n)] := by
  intro hord T hT hid
  have hsees := ScopeTable.declares_enter hT hid
  have hinner := ScopeTable.isSome_scope?_enter_size T id
  have hm := h T.size (hord.parts (List.mem_singleton_self _)) (T.enter id).2 (hT.enter hid) hinner
  rw [show exec (enter id >>= body) T = exec (body T.size) (T.enter id).2 from rfl]
  generalize exec (body T.size) (T.enter id).2 = outcome at hm ⊢
  obtain ⟨r, T'⟩ := outcome
  cases r with
  | error e => exact Missed.value hsees hm
  | ok a =>
    refine ⟨hm.wellFormed, hm.extended.of_enter id, fun name => ?_, fun name t h => ?_, hm.visible_value hsees⟩
    · rw [ScopeTable.declares_of_preserved hT hm.wellFormed name (fun k s _ => hm.extended.preserved_enter) hid
        (ScopeTable.lt_size_of_isSome hid).2]
      simp [within_value (show Role.binder ≠ .value by decide), hn]
    · obtain ⟨inner, hinner, -⟩ := (within_value (by decide)).1 h
      simp [hn] at hinner

theorem performs_declare (name : String) (t : Token) :
    Performs d id (do
      match ← modifyGet fun T => T.declare id name t.pos with
      | none => pure ()
      | some p => fail t.pos (.redeclared name p.pos)) [(.binder, .leaf (.symbol name) t)] := by
  intro _ T hT hid
  rw [exec_modifyGet_bind, ScopeTable.declare]
  cases hlocal : T.local? id name with
  | some previous =>
    intro v hv
    cases hv
  | none =>
    refine ⟨hT.insert hid _, ScopeTable.extends_insert hid _, fun x => ?_, fun x u h => ?_, fun scopes n h => ?_⟩
    · rw [ScopeTable.declares_insert hT hid]
      simp only [within_singleton (show Role.binder ≠ .value by decide), Node.leaf.injEq, Value.symbol.injEq,
        true_and, exists_and_left, exists_eq, and_true]
      rw [eq_comm (a := name)]
    · cases ((within_singleton (by decide)).1 h).2.2
      exact hlocal
    · cases ((within_singleton (by decide)).1 h).2.1

/-- A target must be visible where it stands. -/
theorem performs_target (name : String) (t : Token) :
    Performs d id (do
      if (← get).declares id (baseName name) then pure () else fail t.pos (.undeclared (baseName name)))
      [(.target, .leaf (.symbol name) t)] := by
  have hnone : ∀ {scopes pos v}, ¬ BoundAt d [(.target, .leaf (.symbol name) t)] scopes pos v := by
    rintro scopes pos v ⟨around, u, h, -⟩
    cases ((within_singleton (by decide)).1 h).2.1
  intro _ T hT hid
  rw [exec_get_bind]
  by_cases hdecl : T.declares id (baseName name) = true
  · rw [if_pos hdecl]
    refine ⟨hT, .refl T id, fun x => ?_, fun x u h => ?_, fun scopes m h => ?_⟩
    · simp [within_singleton (show Role.target ≠ .value by decide)]
    · cases ((within_singleton (by decide)).1 h).2.1
    · obtain ⟨-, -, rfl⟩ := (within_singleton (by decide)).1 h
      exact ⟨name, t, rfl, .inl hdecl⟩
  · rw [if_neg hdecl]
    intro v hv
    obtain rfl : baseName name = v := by simpa using hv
    exact ⟨[], name, t, .here (by simp), rfl, rfl, fun h => h.elim hdecl hnone⟩

end Performs

def performing : Partwise standard where
  Holds := Performs standard
  holds_pure := performs_pure
  holds_fail := performs_fail
  holds_bind := Performs.bind_of_ok
  holds_value := Performs.value
  holds_scope hn h := performs_scope hn h
  holds_declare name t _ := performs_declare name t
  holds_target := performs_target
  usual_or_coarse := .inl ⟨rfl, rfl⟩

/-- **Nodes perform what they are.** -/
theorem nodes_performs (ns : List Node) (f : Frame) (hf : f.declaring = false) :
    Performs standard f.scope (nodes standard ns f) (values ns) :=
  Partwise.nodes_holds (A := performing) ns f (.inl hf)

/-! ## Programs -/

theorem visibleAt_initial {ps : List Part} {scopes : List Node} {pos : Position} {name : String} :
    VisibleAt standard .initial Scope.global ps scopes pos name ↔ BoundAt standard ps scopes pos name := by
  have hnone : ScopeTable.initial.declares Scope.global name = false := rfl
  simp [VisibleAt, hnone]

/-- **Assignments are checked by lexical scope.** In a program that is accepted, every target of an assignment is bound
at its place: a binder of its variable stands before it, in a scope that is also around the assignment. Where a variable
is reported as undeclared stands a target, and it is not bound at its place. -/
theorem generate_lexically_scoped {text : List Char} (h : (Reading.ofText standard text).error = none) :
    let program := values (Reading.ofText standard text).nodes
    let outcome := (generate standard .initial (Reading.ofText standard text).nodes).1
    (∀ code, outcome = .ok code → ∀ scopes n, Within standard program scopes .target n →
      ∃ name t, n = .leaf (.symbol name) t ∧ BoundAt standard program scopes t.pos (baseName name)) ∧
    (∀ pos v, outcome = .error ⟨pos, .undeclared v⟩ →
      (∃ scopes name t, Within standard program scopes .target (.leaf (.symbol name) t) ∧ t.pos = pos ∧
        baseName name = v) ∧
      ∀ scopes name t, Within standard program scopes .target (.leaf (.symbol name) t) → t.pos = pos →
        ¬ BoundAt standard program scopes pos v) := by
  intro program outcome
  have hord : Ordered program := Reading.ordered_of_ofText h
  have hperf := nodes_performs (Reading.ofText standard text).nodes .top rfl hord .initial
    ScopeTable.wellFormed_initial rfl
  rw [show outcome = _ from congrArg Prod.fst (generate_eq _ _)]
  generalize exec (nodes standard (Reading.ofText standard text).nodes .top) .initial = result at hperf ⊢
  obtain ⟨r, T⟩ := result
  cases r with
  | ok codes =>
    refine ⟨fun _ _ scopes n hn => ?_, fun _ _ he => by cases he⟩
    obtain ⟨name, t, rfl, hvis⟩ := hperf.visible scopes n hn
    exact ⟨name, t, rfl, visibleAt_initial.1 hvis⟩
  | error e =>
    refine ⟨fun _ he => absurd he (by simp [Except.map]), fun pos v he => ?_⟩
    obtain rfl : e = ⟨pos, .undeclared v⟩ := Except.error.inj he
    obtain ⟨scopes, name, t, hin, hpos, hname, hvis⟩ := hperf v rfl
    refine ⟨⟨scopes, name, t, hin, hpos, hname⟩, fun scopes' name' t' hin' hpos' hbound => hvis ?_⟩
    -- the target at this position is the one where the error is
    have hleaf : t'.pos ∈ Node.positions (.leaf (.symbol name) t) := by
      rw [Node.positions, hpos, hpos']
      exact List.mem_singleton_self _
    obtain ⟨rfl, -⟩ := hin.unique hord (by decide) hin' hleaf (List.mem_singleton_self _)
    rw [hpos]
    exact visibleAt_initial.2 hbound

/-- A target in a loop whose variable is bound around the loop, and one behind the function that binds its variable. -/
theorem generate_lexically_scoped_loop :
    let accepted := values (Reading.ofText standard "(var a) (for i 0 9 (= a.b i))".toList).nodes
    let rejected := values (Reading.ofText standard "(fun (y) (= y 2)) (= y 1)".toList).nodes
    (∀ scopes n, Within standard accepted scopes .target n →
      ∃ name t, n = .leaf (.symbol name) t ∧ BoundAt standard accepted scopes t.pos (baseName name)) ∧
    ∀ scopes name t, Within standard rejected scopes .target (.leaf (.symbol name) t) → t.pos = ⟨1, 22⟩ →
      ¬ BoundAt standard rejected scopes ⟨1, 22⟩ "y" := by
  have haccepted := (generate_lexically_scoped
    (show (Reading.ofText standard "(var a) (for i 0 9 (= a.b i))".toList).error = none by cbv)).1
  have hrejected := (generate_lexically_scoped
    (show (Reading.ofText standard "(fun (y) (= y 2)) (= y 1)".toList).error = none by cbv)).2
  refine ⟨haccepted "var a;\nfor (var i = 0; i <= 9; i++) \x7b a.b = i; \x7d;\n" ?_, (hrejected ⟨1, 22⟩ "y" ?_).2⟩
  · cbv
  · cbv

end Emit
end QuasiScript
