import QuasiScript.Proofs.Atoms
import QuasiScript.Proofs.Composition

/-!
# What a reader holds

Between two tokens of a scan the finished nodes and the elements of open brackets have readable leaves only, open
brackets are brackets of the language, and a run of punctuation is not empty (`Reader.Sound`). Every step keeps this
(`step_sound`), so it holds along every reading, and all nodes that are read are readable (`readAll_readable`).
-/
namespace QuasiScript
open Dialect (standard)

namespace Node

mutual

def Readable : Node → Prop
  | .leaf v _ => v.Readable
  | .list es _ => AllReadable es

def AllReadable : List Node → Prop
  | [] => True
  | n :: ns => n.Readable ∧ AllReadable ns

end

mutual

def decideReadable : ∀ n : Node, Decidable n.Readable
  | .leaf v _ => inferInstanceAs (Decidable v.Readable)
  | .list es _ => decideAllReadable es

def decideAllReadable : ∀ ns : List Node, Decidable (AllReadable ns)
  | [] => inferInstanceAs (Decidable True)
  | n :: ns => @instDecidableAnd _ _ (decideReadable n) (decideAllReadable ns)

end

instance : DecidablePred Readable := decideReadable

theorem allReadable_iff {ns : List Node} : AllReadable ns ↔ ∀ n ∈ ns, n.Readable := by
  induction ns with
  | nil => simp [AllReadable]
  | cons n ns ih => rw [AllReadable, ih, List.forall_mem_cons]

end Node

namespace Pending

def Sound : Pending → Prop
  | .bracket opening es => standard.isOpen opening.lexeme = true ∧ ∀ n ∈ es, n.Readable
  | .sugar _ symbol => (Value.symbol symbol).Readable

end Pending

namespace Reader

structure Sound (r : Reader) : Prop where
  finished : ∀ n ∈ r.finished, n.Readable
  stack : ∀ p ∈ r.stack, p.Sound
  run : ∀ first ∈ r.run, first.lexeme ≠ ""

theorem start_sound : start.Sound := ⟨by simp [start], by simp [start], by simp [start]⟩

theorem place_sound {finished : List Node} (hf : ∀ n ∈ finished, n.Readable) :
    ∀ {stack : List Pending} {n : Node}, (∀ p ∈ stack, p.Sound) → n.Readable → (place finished stack n).Sound
  | [], n, hs, hn => ⟨List.forall_mem_cons.2 ⟨hn, hf⟩, hs, by simp [place]⟩
  | .bracket _ es :: stack, n, hs, hn => by
    obtain ⟨⟨hopen, hes⟩, hs⟩ := List.forall_mem_cons.1 hs
    exact ⟨hf, List.forall_mem_cons.2 ⟨⟨hopen, List.forall_mem_cons.2 ⟨hn, hes⟩⟩, hs⟩, by simp [place]⟩
  | .sugar head symbol :: stack, n, hs, hn => by
    obtain ⟨hsymbol, hs⟩ := List.forall_mem_cons.1 hs
    have hlist : (Node.list [.leaf (.symbol symbol) head, n] head).Readable := ⟨hsymbol, hn, trivial⟩
    rw [place]
    exact place_sound hf hs hlist

/-- What abbreviations stand for can be written out. -/
theorem sugar_readable {t : Table String} (ht : t = standard.bracketSugar ∨ t = standard.punctuationSugar)
    {key symbol : String} (h : t.get? key = some symbol) : (Value.symbol symbol).Readable := by
  have hb : ∀ e ∈ standard.bracketSugar.entries, (Value.symbol e.2).Readable := by decide
  have hp : ∀ e ∈ standard.punctuationSugar.entries, (Value.symbol e.2).Readable := by decide
  have hmem := Dialect.mem_of_get? h
  rcases ht with rfl | rfl
  · exact hb _ hmem
  · exact hp _ hmem

theorem closedElements_readable (opening : Token) {es : List Node} (h : ∀ n ∈ es, n.Readable) :
    ∀ n ∈ closedElements standard opening es, n.Readable := by
  have hes : ∀ n ∈ es.reverse, n.Readable := fun n hn => h n (List.mem_reverse.1 hn)
  unfold closedElements
  cases hg : standard.bracketSugar.get? opening.lexeme with
  | none => exact hes
  | some symbol => exact List.forall_mem_cons.2 ⟨sugar_readable (.inl rfl) hg, hes⟩

theorem endRun_sound {r r' : Reader} (hr : r.Sound) (h : r.endRun standard = .ok r') : r'.Sound := by
  unfold endRun at h
  split at h
  · cases h
    exact hr
  · split at h
    · rename_i symbol hg
      cases h
      exact ⟨hr.finished, List.forall_mem_cons.2 ⟨sugar_readable (.inr rfl) hg, hr.stack⟩, by simp⟩
    · cases h

theorem close_sound {r r' : Reader} {t : Token} (hr : r.Sound) (h : r.close standard t = .ok r') : r'.Sound := by
  unfold close at h
  split at h
  · rename_i opening es stack hstack
    have hs := hr.stack
    rw [hstack] at hs
    obtain ⟨⟨-, hes⟩, hs⟩ := List.forall_mem_cons.1 hs
    split at h
    · cases h
      exact place_sound hr.finished hs (Node.allReadable_iff.2 (closedElements_readable opening hes))
    · cases h
  · cases h

theorem accept_sound {r r' : Reader} {t : Token} (hr : r.Sound) (ht : t.Regular standard)
    (h : r.accept standard t = .ok r') : r'.Sound := by
  unfold accept at h
  unfold Token.Regular at ht
  cases hk : t.kind with
  | comment =>
    simp only [hk] at h
    cases h
    exact hr
  | openBracket =>
    simp only [hk] at h ht
    cases h
    exact ⟨hr.finished, List.forall_mem_cons.2 ⟨⟨ht, by simp⟩, hr.stack⟩, hr.run⟩
  | closeBracket =>
    simp only [hk] at h
    exact close_sound hr h
  | string =>
    simp only [hk] at h
    cases h
    exact place_sound hr.finished hr.stack trivial
  | punctuation =>
    simp only [hk] at h ht
    cases h
    exact ⟨hr.finished, hr.stack, by simpa using ht⟩
  | atom =>
    simp only [hk] at h ht
    cases h
    exact place_sound hr.finished hr.stack (Dialect.atomValue_readable ht.1 ht.2)
  | endOfStream =>
    simp only [hk] at ht

/-- **Every step keeps what holds of a reader.** -/
theorem step_sound {r r' : Reader} {t : Token} (hr : r.Sound) (ht : t.Regular standard)
    (h : r.step standard t = .ok r') : r'.Sound := by
  cases hrun : r.run with
  | none =>
    rw [step_of_idle hrun] at h
    exact accept_sound hr ht h
  | some first =>
    by_cases hl : t.kind = .punctuation ∧ standard.beginsSugar (first.lexeme ++ t.lexeme) = true
    · rw [step_of_longer hrun hl] at h
      cases h
      have hfirst := hr.run first hrun
      exact ⟨hr.finished, hr.stack, by simp [hfirst]⟩
    · rw [step_of_ended hrun hl] at h
      cases he : r.endRun standard with
      | error e =>
        rw [he] at h
        cases h
      | ok r₁ =>
        rw [he] at h
        exact accept_sound (endRun_sound hr he) ht h

theorem advance_sound : ∀ {ts : List Token} {r r' : Reader}, r.Sound → (∀ t ∈ ts, t.Regular standard) →
    r.advance standard ts = .ok r' → r'.Sound
  | [], _, _, hr, _, h => by
    cases h
    exact hr
  | t :: ts, r, r', hr, hts, h => by
    obtain ⟨ht, hts⟩ := List.forall_mem_cons.1 hts
    cases hs : r.step standard t with
    | ok r₁ =>
      rw [advance_cons hs] at h
      exact advance_sound (step_sound hr ht hs) hts h
    | error e =>
      rw [advance, hs] at h
      cases h

theorem finish_nodes (r : Reader) (ending : Ending) : (r.finish standard ending).nodes = r.finished.reverse := by
  cases ending with
  | broken t e => rfl
  | finished p =>
    simp only [finish]
    split <;> rfl

/-- All nodes that are read are readable, with or without an error. -/
theorem readAll_readable (ending : Ending) : ∀ {ts : List Token} {r : Reader}, r.Sound →
    (∀ t ∈ ts, t.Regular standard) → ∀ n ∈ (readAll standard ending r ts).nodes, n.Readable
  | [], r, hr, _, n, hn => by
    rw [readAll, finish_nodes] at hn
    exact hr.finished n (List.mem_reverse.1 hn)
  | t :: ts, r, hr, hts, n, hn => by
    obtain ⟨ht, hts⟩ := List.forall_mem_cons.1 hts
    rw [readAll] at hn
    cases hs : r.step standard t with
    | ok r' =>
      rw [hs] at hn
      exact readAll_readable ending (step_sound hr ht hs) hts n hn
    | error e =>
      rw [hs] at hn
      exact hr.finished n (List.mem_reverse.1 hn)

end Reader
end QuasiScript
