import QuasiScript.Compilation
import QuasiScript.Proofs.Composition
import QuasiScript.Proofs.Emission

/-!
# Units one after the other, and all at once

Emitting a list of nodes is emitting its first part and then the rest on the scopes that the first part left
(`generate_append`). A session therefore gives, unit by unit, the code of all its nodes in a row (`compileAll_ok_iff`).
Units with newlines between them are read as the same nodes in other lines (`ofText_intercalate`), and emission does not
look at lines: compiling them at once gives the session's code and, up to lines, the session's scopes
(`compileAll_intercalate`).
-/
namespace QuasiScript

/-- The same scopes with the same parents, names and columns, whatever the lines. -/
def ScopeTable.SameButLines (t t' : ScopeTable) : Prop := t.relocate Position.inLine = t'.relocate Position.inLine

def Relabelling.inLine : Relabelling := ⟨Token.relocate Position.inLine, Position.inLine, fun _ => rfl⟩

namespace Emit
variable {d : Dialect}

/-! ## Emitting one list after another -/

theorem nodes_append (ms ns : List Node) (f : Frame) :
    nodes d (ms ++ ns) f = (do
      let first ← nodes d ms f
      let rest ← nodes d ns f
      pure (first ++ rest)) := by
  induction ms with
  | nil => simp [nodes]
  | cons m ms ih => simp [nodes, ih]

theorem generate_eq_ok_iff {T T' : ScopeTable} {ns : List Node} {code : String} :
    generate d T ns = (.ok code, T') ↔
      ∃ codes, exec (nodes d ns .top) T = (.ok codes, T') ∧ String.join (codes.map (· ++ ";\n")) = code := by
  rw [generate_eq]
  rcases exec (nodes d ns .top) T with ⟨r, T₁⟩
  cases r with
  | error e => simp [Except.map]
  | ok codes =>
    constructor
    · rintro ⟨⟩
      exact ⟨codes, rfl, rfl⟩
    · rintro ⟨_, ⟨⟩, rfl⟩
      rfl

/-- **Code of two lists in a row**: the code of the first, then that of the second on the scopes the first left. -/
theorem generate_append {T T' : ScopeTable} {ms ns : List Node} {code : String} :
    generate d T (ms ++ ns) = (.ok code, T') ↔
      ∃ first T₁ rest, generate d T ms = (.ok first, T₁) ∧ generate d T₁ ns = (.ok rest, T') ∧
        code = first ++ rest := by
  simp only [generate_eq_ok_iff, nodes_append]
  constructor
  · rintro ⟨codes, h, rfl⟩
    obtain ⟨first, T₁, hm, h⟩ := exec_bind_ok h
    obtain ⟨rest, T₂, hn, h⟩ := exec_bind_ok h
    cases h
    exact ⟨_, T₁, _, ⟨first, hm, rfl⟩, ⟨rest, hn, rfl⟩, by simp⟩
  · rintro ⟨_, T₁, _, ⟨first, hm, rfl⟩, ⟨rest, hn, rfl⟩, rfl⟩
    refine ⟨first ++ rest, ?_, by simp⟩
    simp only [exec_bind, hm, hn, exec_pure]

/-! ## Lines do not matter -/

/-- **Nodes that differ in their lines only** give the same code, and scopes that differ in their lines only. -/
theorem generate_congr_inLine {T T' : ScopeTable} {ms ns : List Node} {code : String}
    (hn : ms.map (Node.relocate Position.inLine) = ns.map (Node.relocate Position.inLine))
    (h : generate d T ms = (.ok code, T')) : ∃ T₂, generate d T ns = (.ok code, T₂) ∧ T'.SameButLines T₂ := by
  have hr : Node.retokens Relabelling.inLine.token ms = Node.retokens Relabelling.inLine.token ns := by
    rw [Node.retokens_eq_map, Node.retokens_eq_map]
    exact hn
  have hboth := generate_relabel (d := d) .inLine T ms
  rw [hr, generate_relabel .inLine T ns, h] at hboth
  rcases hg : generate d T ns with ⟨r, T₂⟩
  rw [hg] at hboth
  cases r with
  | error e => cases hboth
  | ok code' =>
    simp only [relocateOutcome, Prod.mk.injEq, Except.ok.injEq] at hboth
    obtain ⟨rfl, hT⟩ := hboth
    exact ⟨T₂, rfl, hT.symm⟩

end Emit

namespace Reading
open Dialect (standard)

/-- **Texts with newlines between them**, each of which reads without error, are read as all their nodes in a row, but
for the lines. -/
theorem ofText_intercalate : ∀ texts : List (List Char), (∀ s ∈ texts, (ofText standard s).error = none) →
    (ofText standard (['\n'].intercalate texts)).error = none ∧
      (ofText standard (['\n'].intercalate texts)).nodes.map (Node.relocate Position.inLine) =
        (texts.flatMap fun s => (ofText standard s).nodes).map (Node.relocate Position.inLine)
  | [], _ => by
    have h : ofText standard [] = ⟨[], none⟩ := by cbv
    simp [h]
  | [s], hs => by
    simp only [List.intercalate_singleton, List.flatMap_cons, List.flatMap_nil, List.append_nil, and_true]
    exact hs s (by simp)
  | s :: s' :: texts, hs => by
    obtain ⟨p, -, hk⟩ := ofText_append_newline (hs s (by simp))
    obtain ⟨he, hn⟩ := ofText_intercalate (s' :: texts) fun u hu => hs u (by simp [hu])
    have hcat : ['\n'].intercalate (s :: s' :: texts) = s ++ '\n' :: ['\n'].intercalate (s' :: texts) := by
      simp [List.intercalate_cons_cons]
    rw [hcat, hk, List.flatMap_cons, List.map_append, List.map_append, ← hn]
    refine ⟨by simp [relocate, he], ?_⟩
    congr 1
    simp only [relocate, List.map_map]
    refine List.map_congr_left fun n _ => ?_
    exact n.relocate_relocate _ _

end Reading

namespace Compilation

theorem ofText_ok_iff {d : Dialect} {T T' : ScopeTable} {text : List Char} {code : String}
    (hread : (Reading.ofText d text).error = none) (name : String) :
    (ofText d T name text).result = .ok code ∧ (ofText d T name text).scopes = T' ↔
      Emit.generate d T (Reading.ofText d text).nodes = (.ok code, T') := by
  simp only [ofText, hread]
  rcases Emit.generate d T (Reading.ofText d text).nodes with ⟨r, T₁⟩
  cases r <;> simp

end Compilation

namespace Session

/-- Compiles named texts one after the other, whether they succeed or not. -/
def compileAll : Session → List (String × List Char) → List Compilation × Session
  | s, [] => ([], s)
  | s, (name, text) :: units =>
    let (c, s) := s.compile name text
    let (cs, s) := s.compileAll units
    (c :: cs, s)

/-- All units were compiled, to these codes. -/
def Succeeds (cs : List Compilation) (codes : List String) : Prop := cs.map Compilation.result = codes.map .ok

def nodesOf (d : Dialect) (units : List (String × List Char)) : List Node :=
  units.flatMap fun u => (Reading.ofText d u.2).nodes

/-- **One more unit** succeeds exactly if its nodes give code on the session's scopes, and the session goes on with the
scopes they leave. -/
theorem compile_ok_iff {s : Session} {text : List Char} {code : String} {T : ScopeTable}
    (hread : (Reading.ofText s.dialect text).error = none) (name : String) :
    (s.compile name text).1.result = .ok code ∧ (s.compile name text).2 = ⟨s.dialect, T, s.units + 1⟩ ↔
      Emit.generate s.dialect s.scopes (Reading.ofText s.dialect text).nodes = (.ok code, T) := by
  simp only [compile, Compilation.ofText, hread]
  rcases Emit.generate s.dialect s.scopes (Reading.ofText s.dialect text).nodes with ⟨r, T'⟩
  cases r <;> simp

theorem compile_of_ok {s : Session} {name : String} {text : List Char} {code : String}
    (h : (s.compile name text).1.result = .ok code) :
    ∃ T, (s.compile name text).2 = ⟨s.dialect, T, s.units + 1⟩ := by
  unfold compile at h ⊢
  cases hr : (Compilation.ofText s.dialect s.scopes name text).result with
  | ok c => exact ⟨(Compilation.ofText s.dialect s.scopes name text).scopes, by simp only [hr]⟩
  | error e => simp [hr] at h

/-- **All units of a session** succeed exactly if their nodes in a row give code on the session's scopes: the codes of
the units one after the other, and the same scopes in the end. -/
theorem compileAll_ok_iff : ∀ (units : List (String × List Char)) (s : Session) {code : String} {T : ScopeTable},
    (∀ u ∈ units, (Reading.ofText s.dialect u.2).error = none) →
      ((∃ codes, Succeeds (s.compileAll units).1 codes ∧ String.join codes = code ∧ (s.compileAll units).2.scopes = T) ↔
        Emit.generate s.dialect s.scopes (nodesOf s.dialect units) = (.ok code, T))
  | [], s, code, T, _ => by
    have hg : Emit.generate s.dialect s.scopes [] = (.ok "", s.scopes) := rfl
    simp [compileAll, Succeeds, nodesOf, hg, eq_comm]
  | (name, text) :: units, s, code, T, hread => by
    have hunit : (Reading.ofText s.dialect text).error = none := hread (name, text) (by simp)
    have hunits : ∀ u ∈ units, (Reading.ofText s.dialect u.2).error = none := fun u hu => hread u (by simp [hu])
    have hnodes : nodesOf s.dialect ((name, text) :: units) =
        (Reading.ofText s.dialect text).nodes ++ nodesOf s.dialect units := by
      simp [nodesOf]
    rw [hnodes, Emit.generate_append]
    constructor
    · rintro ⟨codes, hs, rfl, rfl⟩
      cases codes with
      | nil => simp [Succeeds, compileAll] at hs
      | cons first codes =>
        simp only [Succeeds, compileAll, List.map_cons, List.cons.injEq] at hs
        obtain ⟨hfirst, hrest⟩ := hs
        obtain ⟨T₁, h₁⟩ := compile_of_ok hfirst
        refine ⟨first, T₁, String.join codes, (compile_ok_iff hunit name).1 ⟨hfirst, h₁⟩, ?_, by simp⟩
        rw [h₁] at hrest
        exact (compileAll_ok_iff units ⟨s.dialect, T₁, s.units + 1⟩ hunits).1
          ⟨codes, hrest, rfl, by simp only [compileAll, h₁]⟩
    · rintro ⟨first, T₁, rest, hg, hg', rfl⟩
      obtain ⟨hfirst, h₁⟩ := (compile_ok_iff hunit name).2 hg
      obtain ⟨codes, hs, hj, hT⟩ := (compileAll_ok_iff units ⟨s.dialect, T₁, s.units + 1⟩ hunits).2 hg'
      refine ⟨first :: codes, ?_, by simp [hj], ?_⟩
      · simp only [Succeeds, compileAll, List.map_cons, hfirst, h₁, List.cons.injEq, true_and]
        exact hs
      · simp only [compileAll, h₁]
        exact hT

/-- **Compiling units one by one and all at once agree.** Units that read without error all succeed in a fresh session
exactly if their texts, with newlines between them, succeed as one unit; then the one unit's code is theirs in a row,
and its scopes are the session's but for the lines. -/
theorem compileAll_intercalate (units : List (String × List Char)) (name : String)
    (hread : ∀ u ∈ units, (Reading.ofText .standard u.2).error = none) :
    let session := (start .standard).compileAll units
    let batch := Compilation.ofText .standard .initial name (['\n'].intercalate (units.map Prod.snd))
    ((∃ codes, Succeeds session.1 codes) ↔ ∃ code, batch.result = .ok code) ∧
      ∀ codes, Succeeds session.1 codes →
        batch.result = .ok (String.join codes) ∧ session.2.scopes.SameButLines batch.scopes := by
  intro session batch
  obtain ⟨hbatch, hnodes⟩ := Reading.ofText_intercalate (units.map Prod.snd) (by
    intro s hs
    obtain ⟨u, hu, rfl⟩ := List.mem_map.1 hs
    exact hread u hu)
  have hflat : (units.map Prod.snd).flatMap (fun s => (Reading.ofText .standard s).nodes) =
      nodesOf .standard units := by
    simp [nodesOf, List.flatMap_map]
  rw [hflat] at hnodes
  have hforth : ∀ codes, Succeeds session.1 codes →
      batch.result = .ok (String.join codes) ∧ session.2.scopes.SameButLines batch.scopes := by
    intro codes hs
    have hg := (compileAll_ok_iff units (start .standard) hread).1 ⟨codes, hs, rfl, rfl⟩
    obtain ⟨T, hT, hsame⟩ := Emit.generate_congr_inLine hnodes.symm hg
    obtain ⟨hr, rfl⟩ := (Compilation.ofText_ok_iff hbatch name).2 hT
    exact ⟨hr, hsame⟩
  refine ⟨⟨fun ⟨codes, hs⟩ => ⟨_, (hforth codes hs).1⟩, fun ⟨code, hc⟩ => ?_⟩, hforth⟩
  have hg := (Compilation.ofText_ok_iff hbatch name).1 ⟨hc, rfl⟩
  obtain ⟨T, hT, -⟩ := Emit.generate_congr_inLine hnodes hg
  obtain ⟨codes, hs, -⟩ := (compileAll_ok_iff units (start .standard) hread).2 hT
  exact ⟨codes, hs⟩

theorem compileAll_intercalate_assignment :
    let units := [("a", "(var x 1)\n; one".toList), ("b", "(= x (+ x 2))".toList)]
    let session := (start .standard).compileAll units
    let batch := Compilation.ofText .standard .initial "c" (['\n'].intercalate (units.map Prod.snd))
    Succeeds session.1 ["var x = 1;\n", "x = x + 2;\n"] ∧
      batch.result = .ok (String.join ["var x = 1;\n", "x = x + 2;\n"]) ∧
      session.2.scopes.SameButLines batch.scopes := by
  intro units session batch
  have hread : ∀ u ∈ units, (Reading.ofText .standard u.2).error = none := by
    simp only [units, List.forall_mem_cons]
    exact ⟨by cbv, by cbv, by simp⟩
  have hs : Succeeds session.1 ["var x = 1;\n", "x = x + 2;\n"] := by cbv
  exact ⟨hs, (compileAll_intercalate units "c" hread).2 _ hs⟩

end Session
end QuasiScript
