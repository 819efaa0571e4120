import QuasiScript.Proofs.Growth
import QuasiScript.Proofs.Incremental

/-!
# What a session remembers

A session is asked to compile units and what it knows (`Session.Request`); a run gives the requests with their replies,
in order. What a session is in after a run can be told from the run alone (`Accounts`): how many units were accepted, and
which names they declare outside of functions and loops. One request keeps this true (`Accounts.ask`), and so does a
run. A request that fails leaves the session as it was, so runs do not show what failed (`run_kept`).
-/
namespace QuasiScript
open Dialect (standard)

namespace Binding
variable {d : Dialect} {name : String}

/-- **A name is declared in an evaluated node**, by a declaration that is in no function or loop of the node. -/
inductive DeclaredIn (d : Dialect) (name : String) : Node → Prop
  | declarator {n : Node} {t : Token} : Emit.formOf d n = .declaration →
      (.binder, .leaf (.symbol name) t) ∈ parts d n → DeclaredIn d name n
  | inside {n m : Node} : opensScope (Emit.formOf d n) = false → (.value, m) ∈ parts d n → DeclaredIn d name m →
      DeclaredIn d name n

theorem role_of_mem_values {role : Role} {n : Node} {ns : List Node} (h : (role, n) ∈ values ns) : role = .value := by
  obtain ⟨m, -, hm⟩ := List.mem_map.1 h
  exact (Prod.mk.inj hm).1.symm

/-- Variables are new in declarations, functions and loops only. -/
theorem form_of_binder {n m : Node} (h : (.binder, m) ∈ parts d n) (hscope : scope d n = []) :
    Emit.formOf d n = .declaration := by
  have hvalues : ∀ {ns : List Node}, (Role.binder, m) ∉ values ns := fun h => by
    cases role_of_mem_values h
  cases n with
  | leaf v t => cases h
  | list es t =>
    unfold scope at hscope
    change (Role.binder, m) ∈ formParts d (Emit.formOf d (.list es t)) es at h
    cases hform : Emit.formOf d (.list es t) with
    | declaration => rfl
    | lambda | forLoop => simp [hform, opensScope] at hscope
    | assignment =>
      rw [hform, formParts, assigned] at h
      rcases List.mem_append.1 h with h | h
      · obtain ⟨x, -, hx⟩ := List.mem_map.1 h
        cases hx
      · exact absurd h hvalues
    | existence | quote | unquote | unquoteSplicing =>
      rw [hform] at h
      cases h
    | _ =>
      rw [hform, formParts] at h
      exact absurd h hvalues

theorem DeclaredIn.within {n : Node} (h : DeclaredIn d name n) :
    scope d n = [] ∧ ∃ t, Within d (parts d n) [] .binder (.leaf (.symbol name) t) := by
  induction h with
  | @declarator n t hform hmem =>
    refine ⟨?_, t, .here hmem⟩
    simp [scope, hform, opensScope]
  | @inside n m hform hmem _ ih =>
    obtain ⟨hscope, t, hin⟩ := ih
    refine ⟨by simp [scope, hform], t, ?_⟩
    have hwithin := Within.inside hmem hin
    rwa [hscope, List.append_nil] at hwithin

theorem Within.declaredIn {ps : List Part} {scopes : List Node} {role : Role} {m : Node} (h : Within d ps scopes role m) :
    scopes = [] → role = .binder → ∀ t, m = .leaf (.symbol name) t → ∀ n, ps = parts d n → scope d n = [] →
      DeclaredIn d name n := by
  induction h with
  | here hmem =>
    rintro - rfl t rfl n rfl hscope
    exact .declarator (form_of_binder hmem hscope) hmem
  | @inside ps k m scopes role hmem _ ih =>
    rintro hscopes hrole t hm n rfl hscope
    obtain ⟨hinner, hk⟩ := List.append_eq_nil_iff.1 hscopes
    have hform : opensScope (Emit.formOf d n) = false := by
      by_contra hopens
      simp [scope, hopens] at hscope
    exact .inside hform hmem (ih hinner hrole t hm k rfl hk)

/-- Binders outside of all scopes are the declarators that stand in no function or loop. -/
theorem exists_within_iff_declaredIn {ns : List Node} :
    (∃ t, Within d (values ns) [] .binder (.leaf (.symbol name) t)) ↔ ∃ n ∈ ns, DeclaredIn d name n := by
  constructor
  · rintro ⟨t, h⟩
    generalize hscopes : ([] : List Node) = scopes at h
    cases h with
    | here hmem => cases role_of_mem_values hmem
    | @inside _ n _ scopes _ hmem hin =>
      obtain ⟨hinner, hn⟩ := List.append_eq_nil_iff.1 hscopes.symm
      obtain ⟨m, hm, heq⟩ := List.mem_map.1 hmem
      obtain rfl := (Prod.mk.inj heq).2
      exact ⟨m, hm, hin.declaredIn hinner rfl t rfl m rfl hn⟩
  · rintro ⟨n, hn, h⟩
    obtain ⟨hscope, t, hin⟩ := h.within
    have hwithin := Within.inside (List.mem_map_of_mem (f := Prod.mk Role.value) hn) hin
    rw [hscope, List.append_nil] at hwithin
    exact ⟨t, hwithin⟩

end Binding

namespace Session
open Binding (DeclaredIn)

/-! ## Runs -/

inductive Request where
  | compile (name : String) (text : List Char)
  | declared (name : String)
  | units
  | scopes

inductive Reply where
  | result (r : Except Failure String)
  | declared (b : Bool)
  | units (n : Nat)
  | scopes (listing : String)

def ask (s : Session) : Request → Reply × Session
  | .compile name text => (.result (s.compile name text).1.result, (s.compile name text).2)
  | .declared name => (.declared (s.declared name), s)
  | .units => (.units s.units, s)
  | .scopes => (.scopes s.scopes.describe, s)

def run : Session → List Request → List (Request × Reply) × Session
  | s, [] => ([], s)
  | s, r :: rs => ((r, (s.ask r).1) :: ((s.ask r).2.run rs).1, ((s.ask r).2.run rs).2)

def Reply.isCode : Reply → Bool
  | .result (.ok _) => true
  | _ => false

def Reply.isError : Reply → Bool
  | .result (.error _) => true
  | _ => false

theorem run_requests (rs : List Request) (s : Session) : (s.run rs).1.map Prod.fst = rs := by
  induction rs generalizing s with
  | nil => rfl
  | cons r rs ih => rw [run, List.map_cons, ih]

/-- A request in a run gets the reply that the session gives after the requests before it. -/
theorem run_split {r : Request} {a : Reply} {after : List (Request × Reply)} :
    ∀ (before : List (Request × Reply)) (rs : List Request) (s : Session),
      (s.run rs).1 = before ++ (r, a) :: after →
        (s.run (before.map Prod.fst)).1 = before ∧ a = ((s.run (before.map Prod.fst)).2.ask r).1
  | [], rs, s, h => by
    cases rs with
    | nil => cases h
    | cons q rs =>
      obtain ⟨hhead, -⟩ := List.cons.inj h
      obtain ⟨rfl, rfl⟩ := Prod.mk.inj hhead
      exact ⟨rfl, rfl⟩
  | (q, b) :: before, rs, s, h => by
    cases rs with
    | nil => cases h
    | cons q' rs =>
      obtain ⟨hhead, htail⟩ := List.cons.inj h
      obtain ⟨rfl, rfl⟩ := Prod.mk.inj hhead
      obtain ⟨hbefore, ha⟩ := run_split before rs _ htail
      rw [List.map_cons, run]
      exact ⟨by rw [hbefore], ha⟩

/-! ## What failed leaves no trace -/

theorem ask_of_isError {s : Session} {r : Request} (h : (s.ask r).1.isError = true) : (s.ask r).2 = s := by
  cases r with
  | compile name text =>
    unfold ask at h ⊢
    unfold compile at h ⊢
    dsimp only at h ⊢
    cases hresult : (Compilation.ofText s.dialect s.scopes name text).result with
    | ok code => simp [hresult, Reply.isError] at h
    | error e => rfl
  | _ => rfl

/-- **Without the requests that failed** a run gives the same replies to the others, and ends in the same session. -/
theorem run_kept (rs : List Request) (s : Session) :
    s.run (((s.run rs).1.filter fun e => !e.2.isError).map Prod.fst) =
      ((s.run rs).1.filter (fun e => !e.2.isError), (s.run rs).2) := by
  induction rs generalizing s with
  | nil => rfl
  | cons r rs ih =>
    rw [run, List.filter_cons]
    by_cases hr : (s.ask r).1.isError = true
    · rw [if_neg (by simp [hr])]
      have hsame := ask_of_isError hr
      rw [hsame]
      exact ih s
    · rw [if_pos (by simp [hr]), List.map_cons, run, ih]

/-! ## What a session knows -/

/-- A unit that was accepted in a run declares a name outside of functions and loops. -/
def DeclaredBy (log : List (Request × Reply)) (name : String) : Prop :=
  ∃ unit text code, (.compile unit text, .result (.ok code)) ∈ log ∧
    ∃ n ∈ (Reading.ofText standard text).nodes, DeclaredIn standard name n

/-- **A session after a run**: it counts the accepted units and knows the names they declare. -/
structure Accounts (log : List (Request × Reply)) (s : Session) : Prop where
  dialect : s.dialect = standard
  sound : s.scopes.Sound standard
  units : s.units = log.countP fun e => e.2.isCode
  declared : ∀ name, s.declared name = true ↔ DeclaredBy log name

theorem accounts_start : Accounts [] (start standard) := by
  refine ⟨rfl, ScopeTable.sound_initial, rfl, fun name => ?_⟩
  have hnone : (start standard).declared name = false := rfl
  rw [hnone]
  constructor
  · intro h
    cases h
  · rintro ⟨unit, text, code, hmem, -⟩
    cases hmem

theorem DeclaredBy.mono {log log' : List (Request × Reply)} {name : String} (h : DeclaredBy log name)
    (hsub : log ⊆ log') : DeclaredBy log' name := by
  obtain ⟨unit, text, code, hmem, hdecl⟩ := h
  exact ⟨unit, text, code, hsub hmem, hdecl⟩

theorem read_of_compile_ok {s : Session} {name : String} {text : List Char} {code : String}
    (h : (s.compile name text).1.result = .ok code) : (Reading.ofText s.dialect text).error = none := by
  by_contra hread
  obtain ⟨e, he⟩ := Option.ne_none_iff_exists'.1 hread
  simp [compile, Compilation.ofText, he] at h

/-- An accepted unit performs its nodes in the global scope. -/
theorem Accounts.performed {log : List (Request × Reply)} {s : Session} (hs : Accounts log s) {name : String}
    {text : List Char} {code : String} (h : (s.compile name text).1.result = .ok code) :
    ∃ T, (s.compile name text).2 = ⟨standard, T, s.units + 1⟩ ∧ T.Sound standard ∧
      Emit.Performed standard Scope.global (Binding.values (Reading.ofText standard text).nodes) s.scopes T := by
  have hread := read_of_compile_ok h
  obtain ⟨T, hT⟩ := compile_of_ok h
  have hgen := (compile_ok_iff hread name).1 ⟨h, hT⟩
  rw [hs.dialect] at hread hT hgen
  have hglobal := hs.sound.isSome_global
  have hgrows := Emit.generate_grows (d := standard) s.scopes (Reading.ofText standard text).nodes
  rw [hgen] at hgrows
  obtain ⟨codes, hexec, -⟩ := Emit.generate_eq_ok_iff.1 hgen
  have hperf := Emit.nodes_performs (Reading.ofText standard text).nodes .top rfl (Reading.ordered_of_ofText hread)
    s.scopes hs.sound.wellFormed hglobal
  rw [hexec] at hperf
  exact ⟨T, hT, (hgrows.sound_and_extends hs.sound hglobal).1, hperf⟩

theorem Accounts.ask {log : List (Request × Reply)} {s : Session} (hs : Accounts log s) (r : Request) :
    Accounts (log ++ [(r, (s.ask r).1)]) (s.ask r).2 := by
  -- a reply that is no code leaves the session as it is, and adds no accepted unit
  have hquiet : (s.ask r).2 = s → (s.ask r).1.isCode = false → Accounts (log ++ [(r, (s.ask r).1)]) (s.ask r).2 := by
    intro hsame hcode
    rw [hsame]
    refine ⟨hs.dialect, hs.sound, by simp [hs.units, hcode], fun name => ?_⟩
    rw [hs.declared]
    constructor
    · intro h
      exact h.mono (List.subset_append_left _ _)
    · rintro ⟨unit, text, code, hmem, hdecl⟩
      rcases List.mem_append.1 hmem with hmem | hmem
      · exact ⟨unit, text, code, hmem, hdecl⟩
      · have hreply := (Prod.mk.inj (List.mem_singleton.1 hmem)).2
        rw [← hreply] at hcode
        cases hcode
  cases r with
  | compile unit text =>
    cases hresult : (s.compile unit text).1.result with
    | error e =>
      have herror : (s.ask (.compile unit text)).1 = .result (.error e) := congrArg Reply.result hresult
      exact hquiet (ask_of_isError (by rw [herror]; rfl)) (by rw [herror]; rfl)
    | ok code =>
      obtain ⟨T, hT, hsound, hperf⟩ := hs.performed hresult
      have hreply : s.ask (.compile unit text) = (.result (.ok code), ⟨standard, T, s.units + 1⟩) :=
        Prod.ext (congrArg Reply.result hresult) hT
      rw [hreply]
      refine ⟨rfl, hsound, by simp [hs.units, Reply.isCode], fun name => ?_⟩
      have hdecl : T.declares Scope.global name = true ↔ s.declared name = true ∨ _ := hperf.declares_iff name
      rw [show Session.declared ⟨standard, T, s.units + 1⟩ name = T.declares Scope.global name from rfl, hdecl,
        hs.declared, Binding.exists_within_iff_declaredIn]
      constructor
      · rintro (h | h)
        · exact h.mono (List.subset_append_left _ _)
        · exact ⟨unit, text, code, by simp, h⟩
      · rintro ⟨unit', text', code', hmem, hdecl⟩
        rcases List.mem_append.1 hmem with hmem | hmem
        · exact .inl ⟨unit', text', code', hmem, hdecl⟩
        · cases List.mem_singleton.1 hmem
          exact .inr hdecl
  | declared name => exact hquiet rfl rfl
  | units => exact hquiet rfl rfl
  | scopes => exact hquiet rfl rfl

theorem Accounts.run {log : List (Request × Reply)} {s : Session} (hs : Accounts log s) (rs : List Request) :
    Accounts (log ++ (s.run rs).1) (s.run rs).2 := by
  induction rs generalizing log s with
  | nil =>
    rw [Session.run, List.append_nil]
    exact hs
  | cons r rs ih =>
    have hmore := ih (hs.ask r)
    rwa [List.append_assoc] at hmore

/-- A unit that declares a known name once more is not accepted. -/
theorem Accounts.error_of_declared {log : List (Request × Reply)} {s : Session} (hs : Accounts log s) {name : String}
    (hname : DeclaredBy log name) {text : List Char}
    (htext : ∃ n ∈ (Reading.ofText standard text).nodes, DeclaredIn standard name n) (unit : String) :
    ∃ e, (s.compile unit text).1.result = .error e := by
  cases hresult : (s.compile unit text).1.result with
  | error e => exact ⟨e, rfl⟩
  | ok code =>
    exfalso
    obtain ⟨T, -, -, hperf⟩ := hs.performed hresult
    obtain ⟨t, hin⟩ := Binding.exists_within_iff_declaredIn.2 htext
    have hfresh := hperf.fresh name t hin
    -- the global scope lies in none, so it sees only what it has itself
    obtain ⟨g, hg, hparent⟩ := Option.map_eq_some_iff.1 hs.sound.root
    have hseen : s.scopes.declares Scope.global name = true := (hs.declared name).2 hname
    rw [ScopeTable.declares_eq hs.sound.wellFormed hg, hparent, ScopeTable.declares_noScope, Bool.or_false] at hseen
    rw [ScopeTable.local?, hg, Option.bind_some] at hfresh
    rw [hfresh] at hseen
    cases hseen

/-- **Runs of a session depend on accepted units only.** Without the requests that failed, a run gives the same replies to
all others. It replies with the number of units accepted before, and that a name is declared exactly if a unit
accepted before declares it outside of functions and loops. So what is once declared stays declared, and a unit that
declares it again fails. -/
theorem run_depends_on_accepted (rs : List Request) :
    let log := ((start standard).run rs).1
    let kept := log.filter fun e => !e.2.isError
    log.map Prod.fst = rs ∧ ((start standard).run (kept.map Prod.fst)).1 = kept ∧
    (∀ before after a, log = before ++ (.units, a) :: after → a = .units (before.countP fun e => e.2.isCode)) ∧
    (∀ before after name a, log = before ++ (.declared name, a) :: after →
      ∃ b, a = .declared b ∧ (b = true ↔ DeclaredBy before name)) ∧
    (∀ before after name a, log = before ++ (.declared name, a) :: after →
      (.declared name, .declared true) ∈ before → a = .declared true) ∧
    ∀ before after unit text name a, log = before ++ (.compile unit text, a) :: after → DeclaredBy before name →
      (∃ n ∈ (Reading.ofText standard text).nodes, DeclaredIn standard name n) → ∃ e, a = .result (.error e) := by
  intro log kept
  have hplace : ∀ before after r a, log = before ++ (r, a) :: after → ∃ s, Accounts before s ∧ a = (s.ask r).1 := by
    intro before after r a h
    obtain ⟨hbefore, ha⟩ := run_split before rs (start standard) h
    have haccounts := accounts_start.run (before.map Prod.fst)
    rw [hbefore] at haccounts
    exact ⟨_, haccounts, ha⟩
  have hdeclared : ∀ before after name a, log = before ++ (.declared name, a) :: after →
      ∃ b, a = .declared b ∧ (b = true ↔ DeclaredBy before name) := by
    intro before after name a h
    obtain ⟨s, hs, rfl⟩ := hplace before after _ a h
    exact ⟨s.declared name, rfl, hs.declared name⟩
  refine ⟨run_requests rs _, congrArg Prod.fst (run_kept rs _), fun before after a h => ?_, hdeclared,
    fun before after name a h hmem => ?_, fun before after unit text name a h hname htext => ?_⟩
  · obtain ⟨s, hs, rfl⟩ := hplace before after _ a h
    exact congrArg Reply.units hs.units
  · -- a name that was reported as declared is declared by a unit before that report
    obtain ⟨first, rest, rfl⟩ := List.append_of_mem hmem
    obtain ⟨b, hb, hreported⟩ := hdeclared first (rest ++ (.declared name, a) :: after) name (.declared true)
      (by rw [h]; simp)
    obtain rfl := Reply.declared.inj hb
    obtain ⟨b, rfl, hiff⟩ := hdeclared _ after name a h
    rw [hiff.2 ((hreported.1 rfl).mono (List.subset_append_left _ _))]
  · obtain ⟨s, hs, rfl⟩ := hplace before after _ a h
    obtain ⟨e, he⟩ := hs.error_of_declared hname htext unit
    exact ⟨e, congrArg Reply.result he⟩

/-- The second unit fails at its second declaration, and the first one is undone. -/
theorem run_depends_on_accepted_redeclared :
    let first := Request.compile "first" "(var a)".toList
    let second := Request.compile "second" "(var b) (var a)".toList
    ∃ e, ((start standard).run [first, .declared "a", second, .units, .declared "b"]).1 =
      [(first, .result (.ok "var a;\n")), (.declared "a", .declared true), (second, .result (.error e)),
        (.units, .units 1), (.declared "b", .declared false)] := by
  have hcode : ((start standard).ask (.compile "first" "(var a)".toList)).1 = .result (.ok "var a;\n") := by cbv
  have ha : ((start standard).ask (.compile "first" "(var a)".toList)).2.declared "a" = true := by cbv
  have hb : ((start standard).ask (.compile "first" "(var a)".toList)).2.declared "b" = false := by cbv
  have hagain : ((Reading.ofText standard "(var b) (var a)".toList).nodes.drop 1).map
      (fun n => (Emit.formOf standard n, Binding.parts standard n)) =
        [(.declaration, [(.binder, .leaf (.symbol "a") ⟨.atom, "a", ⟨1, 14⟩⟩)])] := by cbv
  intro first second
  obtain ⟨n, hn, hpair⟩ := List.mem_map.1 (hagain ▸ List.mem_singleton_self _)
  obtain ⟨hform, hparts⟩ := Prod.mk.inj hpair
  have hdeclares : DeclaredIn standard "a" n := .declarator hform (by rw [hparts]; exact List.mem_singleton_self _)
  generalize hs : ((start standard).ask first).2 = s at ha hb
  have hlog : ((start standard).run [first, .declared "a", second, .units, .declared "b"]).1 =
      [(first, .result (.ok "var a;\n")), (.declared "a", .declared true), (second, (s.ask second).1),
        (.units, .units (s.ask second).2.units), (.declared "b", .declared ((s.ask second).2.declared "b"))] := by
    rw [← hcode, ← ha, ← hs]
    rfl
  obtain ⟨-, -, hunits, hdeclared, -, hfails⟩ :=
    run_depends_on_accepted [first, .declared "a", second, .units, .declared "b"]
  obtain ⟨_, hreply, hknown⟩ := hdeclared [_] _ "a" _ hlog
  have hfirst := hknown.1 (Reply.declared.inj hreply).symm
  obtain ⟨e, he⟩ := hfails [_, _] _ _ _ "a" _ hlog (hfirst.mono (List.subset_append_left _ [_]))
    ⟨n, List.mem_of_mem_drop hn, hdeclares⟩
  have hsame : (s.ask second).2 = s := ask_of_isError (by rw [he]; rfl)
  have hone := hunits [_, _, _] _ _ hlog
  rw [he] at hone hlog
  rw [hone, hsame, hb] at hlog
  exact ⟨e, hlog⟩

end Session
end QuasiScript
