import QuasiScript.Proofs.Incremental
import QuasiScript.Proofs.RoundTrip

/-!
# Code depends on values alone

Exchanging all tokens by one and the same leaves of a program just its values and their nesting (`Node.forget`).
Emission commutes with every exchange of tokens, so two programs that agree in their values have the same outcome up to
the positions in errors and scopes, whatever brackets, sugar and lines they were written with. In particular a text and
the surface of what is read from it compile alike.
-/
namespace QuasiScript
open Dialect (standard)

def Relabelling.forget : Relabelling := ⟨fun _ => ⟨.endOfStream, "", .start⟩, fun _ => .start, fun _ => rfl⟩

/-- The same scopes with the same parents and names, wherever they were declared. -/
def ScopeTable.SameButPositions (t t' : ScopeTable) : Prop :=
  t.relocate (fun _ => .start) = t'.relocate (fun _ => .start)

namespace CompileCause

/-- The same cause; only where a redeclared name was declared before may differ. -/
def SameButPositions (c c' : CompileCause) : Prop :=
  c = c' ∨ ∃ name p p', c = .redeclared name p ∧ c' = .redeclared name p'

theorem redeclared_or_relocate_eq (π : Position → Position) (c : CompileCause) :
    (∃ name p, c = .redeclared name p) ∨ c.relocate π = c := by
  unfold relocate
  split
  · exact .inl ⟨_, _, rfl⟩
  · exact .inr rfl

theorem sameButPositions_of_relocate {π : Position → Position} {c c' : CompileCause}
    (h : c.relocate π = c'.relocate π) : c.SameButPositions c' := by
  rcases redeclared_or_relocate_eq π c with ⟨name, p, rfl⟩ | hc
  · rcases redeclared_or_relocate_eq π c' with ⟨name', p', rfl⟩ | hc'
    · simp only [relocate, redeclared.injEq] at h
      exact .inr ⟨name, p, p', rfl, by rw [h.1]⟩
    · rw [hc'] at h
      exact .inr ⟨name, p, π p, rfl, h.symm⟩
  · rcases redeclared_or_relocate_eq π c' with ⟨name', p', rfl⟩ | hc'
    · rw [hc] at h
      exact .inr ⟨name', π p', p', h, rfl⟩
    · rw [hc, hc'] at h
      exact .inl h

end CompileCause

namespace Emit

def SameOutcome : Except CompileError String → Except CompileError String → Prop
  | .ok code, .ok code' => code = code'
  | .error e, .error e' => e.cause.SameButPositions e'.cause
  | _, _ => False

/-- **Programs with the same values on scopes with the same names** have the same outcome and leave such scopes. -/
theorem generate_congr_forget {d : Dialect} {T T' : ScopeTable} {ms ns : List Node}
    (hn : ms.map Node.forget = ns.map Node.forget) (hT : T.SameButPositions T') :
    SameOutcome (generate d T ms).1 (generate d T' ns).1 ∧
      (generate d T ms).2.SameButPositions (generate d T' ns).2 := by
  have hr : Node.retokens Relabelling.forget.token ms = Node.retokens Relabelling.forget.token ns := by
    rw [Node.retokens_eq_map, Node.retokens_eq_map]
    exact hn
  have hT : T.relocate Relabelling.forget.pos = T'.relocate Relabelling.forget.pos := hT
  have hboth := generate_relabel (d := d) .forget T ms
  rw [hr, hT, generate_relabel .forget T' ns] at hboth
  generalize generate d T ms = out at hboth ⊢
  generalize generate d T' ns = out' at hboth ⊢
  obtain ⟨r, U⟩ := out
  obtain ⟨r', U'⟩ := out'
  cases r with
  | ok code =>
    cases r' with
    | error e => cases hboth
    | ok code' =>
      simp only [relocateOutcome, Prod.mk.injEq, Except.ok.injEq] at hboth
      exact ⟨hboth.1.symm, hboth.2.symm⟩
  | error e =>
    cases r' with
    | ok code => cases hboth
    | error e' =>
      simp only [relocateOutcome, CompileError.relocate, Prod.mk.injEq, Except.error.injEq,
        CompileError.mk.injEq] at hboth
      obtain ⟨⟨-, hcause⟩, hU⟩ := hboth
      exact ⟨CompileCause.sameButPositions_of_relocate hcause.symm, hU.symm⟩

end Emit

namespace Compilation

def SameResult : Except Failure String → Except Failure String → Prop
  | .ok code, .ok code' => code = code'
  | .error (.generate e), .error (.generate e') => e.cause.SameButPositions e'.cause
  | _, _ => False

theorem result_of_read {d : Dialect} {T : ScopeTable} {text : List Char}
    (hread : (Reading.ofText d text).error = none) (name : String) :
    (ofText d T name text).result = (Emit.generate d T (Reading.ofText d text).nodes).1.mapError .generate := by
  simp only [ofText, hread]
  rcases Emit.generate d T (Reading.ofText d text).nodes with ⟨r, T'⟩
  cases r <;> rfl

theorem sameResult_of_sameOutcome {r r' : Except CompileError String} (h : Emit.SameOutcome r r') :
    SameResult (r.mapError .generate) (r'.mapError .generate) := by
  cases r <;> cases r' <;> exact h

/-- **Code depends on values, never on layout or sugar.** In every dialect two programs that agree up to tokens, on
scopes that agree up to positions, both give the same code, or both fail for the same cause; the scopes they leave agree
again. And a text that reads without error compiles like the surface of what is read from it. -/
theorem generate_congr_and_ofText_unparse :
    (∀ (d : Dialect) (T T' : ScopeTable) (ms ns : List Node), ms.map Node.forget = ns.map Node.forget →
      T.SameButPositions T' →
        Emit.SameOutcome (Emit.generate d T ms).1 (Emit.generate d T' ns).1 ∧
          (Emit.generate d T ms).2.SameButPositions (Emit.generate d T' ns).2) ∧
    ∀ (name : String) (text : List Char), (Reading.ofText standard text).error = none →
      SameResult (ofText standard .initial name (Node.unparse (Reading.ofText standard text).nodes).toList).result
        (ofText standard .initial name text).result := by
  refine ⟨fun d T T' ms ns hn hT => Emit.generate_congr_forget hn hT, fun name text hread => ?_⟩
  obtain ⟨hread', hnodes⟩ := Reading.ofText_unparse (Reading.ofText_readable text)
  rw [result_of_read hread, result_of_read hread']
  exact sameResult_of_sameOutcome (Emit.generate_congr_forget hnodes rfl).1

theorem generate_congr_and_ofText_unparse_sugar :
    let twice (t : Token) : List Node :=
      [.list [.leaf (.symbol "var") t, .leaf (.symbol "x") t, .leaf (.symbol "x") t] t]
    let here : Token := ⟨.atom, "x", ⟨1, 1⟩⟩
    let there : Token := ⟨.string, "", ⟨7, 3⟩⟩
    (twice here).map Node.forget = (twice there).map Node.forget ∧
      Emit.SameOutcome (Emit.generate standard .initial (twice here)).1
        (Emit.generate standard .initial (twice there)).1 ∧
      (Reading.ofText standard "(f '(a) ; b\n [1])".toList).error = none ∧
      SameResult (ofText standard .initial ""
          (Node.unparse (Reading.ofText standard "(f '(a) ; b\n [1])".toList).nodes).toList).result
        (ofText standard .initial "" "(f '(a) ; b\n [1])".toList).result ∧
      (ofText standard .initial "" "(f '(a) ; b\n [1])".toList).result = .ok "f([\"a\"], [1]);\n" := by
  intro twice here there
  have hread : (Reading.ofText standard "(f '(a) ; b\n [1])".toList).error = none := by cbv
  have hsame := (generate_congr_and_ofText_unparse.1 standard .initial .initial (twice here) (twice there) rfl rfl).1
  exact ⟨rfl, hsame, hread, generate_congr_and_ofText_unparse.2 "" _ hread, by cbv⟩

end Compilation
end QuasiScript
