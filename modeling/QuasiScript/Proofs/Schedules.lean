import Mathlib
import QuasiScript.Command.Report

/-!
# Reports made side by side

The files of a batch are worked on at the same time: one task for each file, which sees whether the work was called
off, reads the file, makes the report and puts it in its place. The first task that fails has its error kept and calls
the others off. Which task moves next is left open: an interleaving is any list of moves that can be made one after the
other (`Crew.run`). Every move leads on (`move?_left_lt`), so all interleavings end, and they end exactly when the
batch has a result. What the result is does not depend on them, except for which of several unreadable files it names
(`run_schedule_independent`).
-/
namespace QuasiScript

namespace Report

/-- The place of a report that was not made yet. -/
def blank : Report := ⟨"", "", [], .generated "" "" ""⟩

theorem ofFiles_of_error {fs : FileSystem} {path m : String} (h : fs.readSource path = .error m) (paths : List String) :
    ofFiles fs (path :: paths) = ⟨.error m, [.file path]⟩ := by
  rw [ofFiles, h]

theorem ofFiles_of_ok {fs : FileSystem} {path source : String} (h : fs.readSource path = .ok source)
    (paths : List String) : ofFiles fs (path :: paths) =
      ⟨(ofFiles fs paths).result.map (ofSource path source :: ·),
        .file path :: (ofSource path source).records ++ (ofFiles fs paths).records⟩ := by
  rw [ofFiles, h]

end Report

inductive TaskError where
  /-- Another task has failed. -/
  | cancelled
  /-- The file cannot be read, with what is said about it. -/
  | unreadable (message : String)
deriving DecidableEq

inductive Phase where
  | called
  /-- Nothing had failed when it looked. -/
  | admitted
  /-- Its beginning is logged. -/
  | announced
  | loaded (source : String)
  | reported (r : Report)
  /-- Nothing is left to do but to say how it went. -/
  | leaving (error : Option TaskError)
  | ended

namespace Phase

def isEnded : Phase → Bool
  | .ended => true
  | _ => false

def left : Phase → Nat
  | .called => 6
  | .admitted => 5
  | .announced => 4
  | .loaded _ => 3
  | .reported _ => 2
  | .leaving _ => 1
  | .ended => 0

end Phase

structure Crew where
  paths : List String
  /-- How far the tasks have come that were called so far, one for each path in order. -/
  phases : List Phase
  /-- A place for each report. -/
  reports : List Report
  /-- The first error of a task. -/
  failure : Option TaskError
  /-- Whether the work was called off. -/
  cancelled : Bool
  records : List Log.Record

inductive Move where
  /-- The next task is called. -/
  | call
  /-- A task makes a step. -/
  | work (i : Nat)

namespace Crew
variable {fs : FileSystem} {k k' : Crew} {i : Nat}

def start (paths : List String) : Crew := ⟨paths, [], List.replicate paths.length Report.blank, none, false, []⟩

def turn (k : Crew) (i : Nat) (phase : Phase) : Crew := { k with phases := k.phases.set i phase }

def note (k : Crew) (rs : List Log.Record) : Crew := { k with records := k.records ++ rs }

def deliver (k : Crew) (i : Nat) (r : Report) : Crew := { k with reports := k.reports.set i r }

/-- A task fails: the first error is kept, and with it the work is called off. -/
def fail (k : Crew) (e : TaskError) : Crew :=
  match k.failure with
  | none => { k with failure := some e, cancelled := true }
  | some _ => k

def step? (fs : FileSystem) (k : Crew) (i : Nat) (path : String) : Phase → Option Crew
  | .called => some (k.turn i (if k.cancelled then .leaving (some .cancelled) else .admitted))
  | .admitted => some ((k.turn i .announced).note [.file path])
  | .announced =>
    match fs.readSource path with
    | .error m => some (k.turn i (.leaving (some (.unreadable m))))
    | .ok source => some (k.turn i (.loaded source))
  | .loaded source => some ((k.turn i (.reported (.ofSource path source))).note (Report.ofSource path source).records)
  | .reported r => some ((k.turn i (.leaving none)).deliver i r)
  | .leaving none => some (k.turn i .ended)
  | .leaving (some e) => some ((k.turn i .ended).fail e)
  | .ended => none

def move? (fs : FileSystem) (k : Crew) : Move → Option Crew
  | .call => if k.phases.length < k.paths.length then some { k with phases := k.phases ++ [.called] } else none
  | .work i =>
    match k.paths[i]?, k.phases[i]? with
    | some path, some phase => k.step? fs i path phase
    | _, _ => none

def run (fs : FileSystem) (k : Crew) (moves : List Move) : Option Crew := moves.foldlM (move? fs) k

/-- The result, once all tasks were called and have ended: the first error, or else all reports. -/
def result? (k : Crew) : Option (Except TaskError (List Report)) :=
  if k.phases.length = k.paths.length ∧ k.phases.all Phase.isEnded = true then
    some (match k.failure with
      | some e => .error e
      | none => .ok k.reports)
  else none

@[simp] theorem fail_paths (k : Crew) (e : TaskError) : (k.fail e).paths = k.paths := by
  unfold fail
  split <;> rfl

@[simp] theorem fail_phases (k : Crew) (e : TaskError) : (k.fail e).phases = k.phases := by
  unfold fail
  split <;> rfl

@[simp] theorem fail_reports (k : Crew) (e : TaskError) : (k.fail e).reports = k.reports := by
  unfold fail
  split <;> rfl

theorem fail_failure (k : Crew) (e : TaskError) : (k.fail e).failure = some (k.failure.getD e) := by
  unfold fail
  split
  · rename_i h
    rw [h]
    rfl
  · rename_i h
    rw [h]
    rfl

/-! ## What a task has established -/

def Delivered (fs : FileSystem) (k : Crew) (i : Nat) (path : String) : Prop :=
  ∃ source, fs.readSource path = .ok source ∧ k.reports[i]? = some (.ofSource path source)

def Agrees (fs : FileSystem) (k : Crew) (i : Nat) (path : String) : Phase → Prop
  | .called | .admitted | .announced => True
  | .loaded source => fs.readSource path = .ok source
  | .reported r => ∃ source, fs.readSource path = .ok source ∧ r = .ofSource path source
  | .leaving none => Delivered fs k i path
  | .leaving (some .cancelled) => k.failure ≠ none
  | .leaving (some (.unreadable m)) => fs.readSource path = .error m
  | .ended => k.failure = none → Delivered fs k i path

/-- **What holds between any two moves.** -/
structure Sound (fs : FileSystem) (paths : List String) (k : Crew) : Prop where
  batch : k.paths = paths
  called : k.phases.length ≤ paths.length
  places : k.reports.length = paths.length
  /-- The work is called off only because a task has failed. -/
  cancelled : k.cancelled = true → k.failure ≠ none
  /-- The error that is kept is that a file cannot be read. -/
  failure : ∀ e, k.failure = some e → ∃ path ∈ paths, ∃ m, fs.readSource path = .error m ∧ e = .unreadable m
  tasks : ∀ i path phase, paths[i]? = some path → k.phases[i]? = some phase → Agrees fs k i path phase

variable {paths : List String}

theorem sound_start (fs : FileSystem) (paths : List String) : Sound fs paths (start paths) where
  batch := rfl
  called := Nat.zero_le _
  places := List.length_replicate
  cancelled := by simp [start]
  failure := by simp [start]
  tasks := by simp [start]

theorem Delivered.congr {path : String} (h : Delivered fs k i path) (hr : k'.reports[i]? = k.reports[i]?) :
    Delivered fs k' i path := by
  obtain ⟨source, hread, hplace⟩ := h
  exact ⟨source, hread, hr.trans hplace⟩

/-- What the others do takes nothing away from a task. -/
theorem Agrees.mono {path : String} {phase : Phase} (h : Agrees fs k i path phase)
    (hr : k'.reports[i]? = k.reports[i]?) (hf : k'.failure = none → k.failure = none) : Agrees fs k' i path phase := by
  cases phase with
  | called | admitted | announced => trivial
  | loaded source => exact h
  | reported r => exact h
  | leaving e =>
    cases e with
    | none => exact Delivered.congr h hr
    | some e =>
      cases e with
      | cancelled => exact fun hnone => h (hf hnone)
      | unreadable m => exact h
  | ended => exact fun hnone => (h (hf hnone)).congr hr

/-- A step of a task keeps what holds, if the task itself has established what its new phase says. -/
theorem Sound.turned (h : Sound fs paths k) {phase : Phase} (hpaths : k'.paths = k.paths)
    (hphases : k'.phases = k.phases.set i phase) (hplaces : k'.reports.length = k.reports.length)
    (hothers : ∀ j, j ≠ i → k'.reports[j]? = k.reports[j]?) (hkept : k'.failure = none → k.failure = none)
    (hcancelled : k'.cancelled = true → k'.failure ≠ none)
    (hfailure : ∀ e, k'.failure = some e → ∃ path ∈ paths, ∃ m, fs.readSource path = .error m ∧ e = .unreadable m)
    (hself : ∀ path, paths[i]? = some path → Agrees fs k' i path phase) : Sound fs paths k' where
  batch := hpaths.trans h.batch
  called := by rw [hphases, List.length_set]; exact h.called
  places := hplaces.trans h.places
  cancelled := hcancelled
  failure := hfailure
  tasks := by
    intro j path phase' hpath hphase
    rw [hphases] at hphase
    by_cases hj : j = i
    · subst hj
      rw [List.getElem?_set_self'] at hphase
      obtain ⟨old, -, hnew⟩ := Option.map_eq_some_iff.1 hphase
      subst hnew
      exact hself path hpath
    · -- the others are where they were, and what they rely on is still so
      rw [List.getElem?_set_ne (Ne.symm hj)] at hphase
      exact (h.tasks j path phase' hpath hphase).mono (hothers j hj) hkept

/-- **A step of a task keeps what holds.** -/
theorem Sound.step (h : Sound fs paths k) {path : String} {phase : Phase} (hpath : paths[i]? = some path)
    (hphase : k.phases[i]? = some phase) (hstep : k.step? fs i path phase = some k') : Sound fs paths k' := by
  have hagrees := h.tasks i path phase hpath hphase
  -- most steps change nothing that is shared, but for the records
  have hquiet : ∀ (p : Phase) (rs : List Log.Record), Agrees fs k i path p →
      Sound fs paths { k.turn i p with records := rs } := by
    intro p rs hp
    refine h.turned rfl rfl rfl (fun _ _ => rfl) id h.cancelled h.failure fun path' hpath' => ?_
    obtain rfl := Option.some.inj (hpath.symm.trans hpath')
    exact hp.mono rfl id
  cases phase with
  | called =>
    obtain rfl := Option.some.inj hstep
    refine hquiet _ _ ?_
    by_cases hc : k.cancelled = true
    · rw [if_pos hc]
      exact h.cancelled hc
    · rw [if_neg hc]
      trivial
  | admitted =>
    obtain rfl := Option.some.inj hstep
    exact hquiet .announced _ trivial
  | announced =>
    unfold step? at hstep
    cases hread : fs.readSource path with
    | error m =>
      rw [hread] at hstep
      obtain rfl := Option.some.inj hstep
      exact hquiet (.leaving (some (.unreadable m))) _ hread
    | ok source =>
      rw [hread] at hstep
      obtain rfl := Option.some.inj hstep
      exact hquiet (.loaded source) _ hread
  | loaded source =>
    obtain rfl := Option.some.inj hstep
    exact hquiet (.reported (.ofSource path source)) _ ⟨source, hagrees, rfl⟩
  | reported r =>
    obtain rfl := Option.some.inj hstep
    obtain ⟨source, hread, rfl⟩ := hagrees
    have hi : i < k.reports.length := by
      rw [h.places]
      exact (List.getElem?_eq_some_iff.1 hpath).1
    refine h.turned rfl rfl List.length_set (fun j hj => List.getElem?_set_ne (Ne.symm hj)) id h.cancelled h.failure
      fun path' hpath' => ?_
    obtain rfl := Option.some.inj (hpath.symm.trans hpath')
    exact ⟨source, hread, List.getElem?_set_self hi⟩
  | leaving e =>
    cases e with
    | none =>
      obtain rfl := Option.some.inj hstep
      exact hquiet .ended _ fun _ => hagrees
    | some e =>
      obtain rfl := Option.some.inj hstep
      have hfailed : ((k.turn i .ended).fail e).failure = some (k.failure.getD e) := fail_failure _ e
      have hne : ((k.turn i .ended).fail e).failure ≠ none := by
        rw [hfailed]
        exact Option.some_ne_none _
      refine h.turned (fail_paths _ e) (fail_phases _ e) (congrArg List.length (fail_reports _ e))
        (fun j _ => by rw [fail_reports]; rfl) (fun hnone => absurd hnone hne) (fun _ => hne) ?_
        fun _ _ hnone => absurd hnone hne
      intro e' he'
      rw [hfailed] at he'
      obtain rfl := Option.some.inj he'
      -- a task that was called off has seen the error of another, so its own is never the first
      cases hk : k.failure with
      | some e₀ => exact h.failure e₀ hk
      | none =>
        cases e with
        | cancelled => exact absurd hk hagrees
        | unreadable m => exact ⟨path, List.mem_of_getElem? hpath, m, hagrees, rfl⟩
  | ended => cases hstep

theorem move?_work {k' : Crew} (h : k.move? fs (.work i) = some k') : ∃ path phase,
    k.paths[i]? = some path ∧ k.phases[i]? = some phase ∧ k.step? fs i path phase = some k' := by
  unfold move? at h
  dsimp only at h
  split at h
  · rename_i path phase hpath hphase
    exact ⟨path, phase, hpath, hphase, h⟩
  · cases h

theorem move?_call {k' : Crew} (h : k.move? fs .call = some k') :
    k.phases.length < k.paths.length ∧ k' = { k with phases := k.phases ++ [.called] } := by
  unfold move? at h
  dsimp only at h
  split at h
  · exact ⟨‹_›, (Option.some.inj h).symm⟩
  · cases h

/-- **A move keeps what holds.** -/
theorem Sound.move (h : Sound fs paths k) {m : Move} (hm : k.move? fs m = some k') : Sound fs paths k' := by
  cases m with
  | work i =>
    obtain ⟨path, phase, hpath, hphase, hstep⟩ := move?_work hm
    rw [h.batch] at hpath
    exact h.step hpath hphase hstep
  | call =>
    obtain ⟨hlt, rfl⟩ := move?_call hm
    rw [h.batch] at hlt
    refine ⟨h.batch, by rw [List.length_append]; exact hlt, h.places, h.cancelled, h.failure, ?_⟩
    intro i path phase hpath hphase
    by_cases hi : i < k.phases.length
    · rw [List.getElem?_append_left hi] at hphase
      exact (h.tasks i path phase hpath hphase).mono rfl id
    · rw [List.getElem?_append_right (Nat.le_of_not_lt hi)] at hphase
      obtain rfl := List.mem_singleton.1 (List.mem_of_getElem? hphase)
      trivial

/-! ## Moves come to an end -/

/-- The most moves that are left to a crew: seven for each task that was not called, and what is left to the others. -/
def left (k : Crew) : Nat := 7 * (k.paths.length - k.phases.length) + (k.phases.map Phase.left).sum

theorem sum_set_lt {phase phase' : Phase} (hlt : phase'.left < phase.left) : ∀ (ps : List Phase) (i : Nat),
    ps[i]? = some phase → ((ps.set i phase').map Phase.left).sum < (ps.map Phase.left).sum
  | [], i, h => by simp at h
  | p :: ps, 0, h => by
    obtain rfl := Option.some.inj h
    simp [hlt]
  | p :: ps, i + 1, h => by
    have := sum_set_lt hlt ps i h
    simpa using this

theorem step?_phases {path : String} {phase : Phase} (h : k.step? fs i path phase = some k') :
    k'.paths = k.paths ∧ ∃ phase', k'.phases = k.phases.set i phase' ∧ phase'.left < phase.left := by
  cases phase with
  | called =>
    obtain rfl := Option.some.inj h
    refine ⟨rfl, _, rfl, ?_⟩
    split <;> decide
  | admitted | loaded | reported =>
    obtain rfl := Option.some.inj h
    exact ⟨rfl, _, rfl, Nat.lt_succ_self _⟩
  | announced =>
    unfold step? at h
    cases hread : fs.readSource path with
    | error m =>
      rw [hread] at h
      obtain rfl := Option.some.inj h
      exact ⟨rfl, _, rfl, by simp [Phase.left]⟩
    | ok source =>
      rw [hread] at h
      obtain rfl := Option.some.inj h
      exact ⟨rfl, _, rfl, Nat.lt_succ_self _⟩
  | leaving e =>
    cases e with
    | none =>
      obtain rfl := Option.some.inj h
      exact ⟨rfl, _, rfl, Nat.lt_succ_self _⟩
    | some e =>
      obtain rfl := Option.some.inj h
      exact ⟨fail_paths _ e, _, fail_phases _ e, Nat.lt_succ_self _⟩
  | ended => cases h

/-- **Every move leads on.** -/
theorem move?_left_lt {m : Move} (h : k.move? fs m = some k') : k'.left < k.left := by
  unfold left
  cases m with
  | work i =>
    obtain ⟨path, phase, -, hphase, hstep⟩ := move?_work h
    obtain ⟨hpaths, phase', hphases, hlt⟩ := step?_phases hstep
    have hsum := sum_set_lt hlt k.phases i hphase
    rw [hpaths, hphases, List.length_set]
    omega
  | call =>
    obtain ⟨hlt, rfl⟩ := move?_call h
    have hcalled : Phase.called.left = 6 := rfl
    simp only [List.length_append, List.length_singleton, List.map_append, List.map_cons, List.map_nil,
      List.sum_append, List.sum_cons, List.sum_nil, hcalled]
    omega

theorem run_cons (fs : FileSystem) (k : Crew) (m : Move) (ms : List Move) :
    k.run fs (m :: ms) = (k.move? fs m).bind fun k' => k'.run fs ms := by
  unfold run
  rw [List.foldlM_cons]
  rfl

/-- **What any moves lead to is sound, and there are not many of them.** -/
theorem Sound.run (h : Sound fs paths k) : ∀ {moves : List Move}, k.run fs moves = some k' →
    Sound fs paths k' ∧ moves.length + k'.left ≤ k.left := by
  intro moves hrun
  induction moves generalizing k with
  | nil =>
    obtain rfl := Option.some.inj hrun
    exact ⟨h, by simp⟩
  | cons m ms ih =>
    rw [run_cons] at hrun
    obtain ⟨k₁, hm, hms⟩ := Option.bind_eq_some_iff.1 hrun
    obtain ⟨hsound, hlen⟩ := ih (h.move hm) hms
    have hlt := move?_left_lt hm
    refine ⟨hsound, ?_⟩
    rw [List.length_cons]
    omega

theorem result?_eq_some {r : Except TaskError (List Report)} (h : k.result? = some r) :
    k.phases.length = k.paths.length ∧ k.phases.all Phase.isEnded = true ∧
      r = match k.failure with
        | some e => .error e
        | none => .ok k.reports := by
  unfold result? at h
  split at h
  · rename_i hend
    exact ⟨hend.1, hend.2, (Option.some.inj h).symm⟩
  · cases h

theorem step?_eq_none_iff {path : String} {phase : Phase} :
    k.step? fs i path phase = none ↔ phase.isEnded = true := by
  cases phase with
  | announced =>
    unfold step?
    cases hread : fs.readSource path <;> simp [Phase.isEnded]
  | leaving e => cases e <;> simp [step?, Phase.isEnded]
  | _ => simp [step?, Phase.isEnded]

/-- **No move is left exactly when there is a result.** -/
theorem Sound.stuck_iff (h : Sound fs paths k) : (∀ m, k.move? fs m = none) ↔ k.result?.isSome = true := by
  constructor
  · intro hstuck
    have hcall := hstuck .call
    unfold move? at hcall
    have hlen : k.phases.length = k.paths.length := by
      by_contra hne
      have hle := h.called
      rw [← h.batch] at hle
      rw [if_pos (by omega)] at hcall
      cases hcall
    have hended : k.phases.all Phase.isEnded = true := by
      rw [List.all_eq_true]
      intro phase hphase
      obtain ⟨i, hi, hget⟩ := List.mem_iff_getElem.1 hphase
      have hwork := hstuck (.work i)
      dsimp only [move?] at hwork
      rw [List.getElem?_eq_getElem hi, List.getElem?_eq_getElem (hlen ▸ hi), hget] at hwork
      exact step?_eq_none_iff.1 hwork
    unfold result?
    rw [if_pos ⟨hlen, hended⟩]
    rfl
  · intro hresult m
    obtain ⟨r, hr⟩ := Option.isSome_iff_exists.1 hresult
    obtain ⟨hlen, hended, -⟩ := result?_eq_some hr
    cases m with
    | call =>
      unfold move?
      exact if_neg (by omega)
    | work i =>
      unfold move?
      dsimp only
      split
      · rename_i path phase hpath hphase
        exact step?_eq_none_iff.2 (List.all_eq_true.1 hended phase (List.mem_of_getElem? hphase))
      · rfl

/-! ## What comes out -/

/-- Without an error all reports are in their places in the end. -/
theorem Sound.delivered (h : Sound fs paths k) {r : Except TaskError (List Report)} (hr : k.result? = some r)
    (hnone : k.failure = none) {path : String} (hpath : paths[i]? = some path) : Delivered fs k i path := by
  obtain ⟨hlen, hended, -⟩ := result?_eq_some hr
  have hi : i < k.phases.length := by
    rw [hlen, h.batch]
    exact (List.getElem?_eq_some_iff.1 hpath).1
  have hphase := List.getElem?_eq_getElem hi
  have hagrees := h.tasks i path _ hpath hphase
  have hend := List.all_eq_true.1 hended _ (List.getElem_mem hi)
  cases hp : k.phases[i] with
  | ended =>
    rw [hp] at hagrees
    exact hagrees hnone
  | _ =>
    rw [hp] at hend
    cases hend

theorem Sound.result_of_readable (h : Sound fs paths k) {r : Except TaskError (List Report)} (hr : k.result? = some r)
    {sources : List String} (hsources : paths.map fs.readSource = sources.map .ok) :
    r = .ok (List.zipWith Report.ofSource paths sources) := by
  have hnone : k.failure = none := by
    by_contra hne
    obtain ⟨e, he⟩ := Option.ne_none_iff_exists'.1 hne
    obtain ⟨path, hmem, m, hread, -⟩ := h.failure e he
    have hin : fs.readSource path ∈ sources.map (Except.ok (ε := String)) := hsources ▸ List.mem_map_of_mem hmem
    obtain ⟨source, -, hok⟩ := List.mem_map.1 hin
    cases hok.trans hread
  obtain ⟨-, -, hresult⟩ := result?_eq_some hr
  rw [hnone] at hresult
  rw [hresult]
  refine congrArg Except.ok (List.ext_getElem? fun i => ?_)
  have hsource : (paths.map fs.readSource)[i]? = (sources.map Except.ok)[i]? := by rw [hsources]
  rw [List.getElem?_map, List.getElem?_map] at hsource
  rw [List.getElem?_zipWith]
  cases hpath : paths[i]? with
  | none =>
    rw [List.getElem?_eq_none_iff, ← h.places] at hpath
    exact List.getElem?_eq_none_iff.2 hpath
  | some path =>
    obtain ⟨source, hread, hplace⟩ := h.delivered hr hnone hpath
    rw [hpath, Option.map_some, hread] at hsource
    obtain ⟨source', hs, hok⟩ := Option.map_eq_some_iff.1 hsource.symm
    cases hok
    rw [hplace, hs]

theorem Sound.result_of_unreadable (h : Sound fs paths k) {r : Except TaskError (List Report)}
    (hr : k.result? = some r) (hbad : ∃ path ∈ paths, ∃ m, fs.readSource path = .error m) :
    ∃ path ∈ paths, ∃ m, fs.readSource path = .error m ∧ r = .error (.unreadable m) := by
  obtain ⟨-, -, hresult⟩ := result?_eq_some hr
  cases hfailure : k.failure with
  | some e =>
    obtain ⟨path, hmem, m, hread, rfl⟩ := h.failure e hfailure
    rw [hfailure] at hresult
    exact ⟨path, hmem, m, hread, hresult⟩
  | none =>
    obtain ⟨path, hmem, m, hread⟩ := hbad
    obtain ⟨i, hi⟩ := List.mem_iff_getElem?.1 hmem
    obtain ⟨source, hok, -⟩ := h.delivered hr hfailure hi
    cases hok.symm.trans hread

/-! ## One task after the other -/

theorem run_trans {k₁ : Crew} {ms ns : List Move} (h : k.run fs ms = some k₁) (h' : k₁.run fs ns = some k') :
    k.run fs (ms ++ ns) = some k' := by
  unfold run at h h' ⊢
  rw [List.foldlM_append, h]
  exact h'

def between (paths : List String) (n : Nat) (reports : List Report) (failure : Option TaskError)
    (records : List Log.Record) : Crew :=
  ⟨paths, List.replicate n .ended, reports, failure, failure.isSome, records⟩

def during (paths : List String) (n : Nat) (phase : Phase) (reports : List Report) (failure : Option TaskError)
    (records : List Log.Record) : Crew :=
  ⟨paths, List.replicate n .ended ++ [phase], reports, failure, failure.isSome, records⟩

section
variable {n : Nat} {reports : List Report} {failure : Option TaskError} {records : List Log.Record} {phase : Phase}
  {path : String}

theorem between_result? (paths : List String) (reports : List Report) (failure : Option TaskError)
    (records : List Log.Record) : (between paths paths.length reports failure records).result? =
      some (match failure with
        | some e => .error e
        | none => .ok reports) := by
  simp [result?, between, Phase.isEnded]

theorem during_ended : during paths n .ended reports failure records =
    between paths (n + 1) reports failure records := by
  unfold during between
  rw [List.replicate_succ']

theorem move?_between (h : paths[n]? = some path) :
    (between paths n reports failure records).move? fs .call =
      some (during paths n .called reports failure records) := by
  have hn : n < paths.length := (List.getElem?_eq_some_iff.1 h).1
  simp [move?, between, during, hn]

theorem move?_during (h : paths[n]? = some path) : (during paths n phase reports failure records).move? fs (.work n) =
    (during paths n phase reports failure records).step? fs n path phase := by
  simp [move?, during, h]

theorem turn_during (phase' : Phase) : (during paths n phase reports failure records).turn n phase' =
    during paths n phase' reports failure records := by
  simp [turn, during]

theorem note_during (rs : List Log.Record) : (during paths n phase reports failure records).note rs =
    during paths n phase reports failure (records ++ rs) :=
  rfl

theorem deliver_during (r : Report) : (during paths n phase reports failure records).deliver n r =
    during paths n phase (reports.set n r) failure records :=
  rfl

theorem fail_between (e : TaskError) : (between paths n reports failure records).fail e =
    between paths n reports (some (failure.getD e)) records := by
  cases failure <;> rfl

theorem run_nil (fs : FileSystem) (k : Crew) : k.run fs [] = some k := rfl

theorem run_readable (reports : List Report) (records : List Log.Record) {source : String}
    (h : paths[n]? = some path) (hread : fs.readSource path = .ok source) :
    (between paths n reports none records).run fs (.call :: List.replicate 6 (.work n)) =
      some (between paths (n + 1) (reports.set n (Report.ofSource path source)) none
        (records ++ [Log.Record.file path] ++ (Report.ofSource path source).records)) := by
  have hcancelled : ∀ p, (during paths n p reports none records).cancelled = false := fun _ => rfl
  simp only [List.replicate_succ, List.replicate_zero, run_cons, run_nil, move?_between h, move?_during h,
    Option.bind_some, step?, turn_during, note_during, deliver_during, hcancelled, hread, during_ended,
    Bool.false_eq_true, if_false]

theorem run_unreadable {m : String} (h : paths[n]? = some path) (hread : fs.readSource path = .error m) :
    (between paths n reports none records).run fs (.call :: List.replicate 4 (.work n)) =
      some (between paths (n + 1) reports (some (.unreadable m)) (records ++ [Log.Record.file path])) := by
  have hcancelled : ∀ p, (during paths n p reports none records).cancelled = false := fun _ => rfl
  simp only [List.replicate_succ, List.replicate_zero, run_cons, run_nil, move?_between h, move?_during h,
    Option.bind_some, step?, turn_during, note_during, hcancelled, hread, during_ended, fail_between,
    Bool.false_eq_true, if_false, Option.getD_none]

/-- Once a task has failed, the others end when they are called. -/
theorem run_cancelled (fs : FileSystem) (reports : List Report) (e : TaskError) (records : List Log.Record)
    (pre rest : List String) : ∃ moves, (between (pre ++ rest) pre.length reports (some e) records).run fs moves =
      some (between (pre ++ rest) (pre ++ rest).length reports (some e) records) := by
  induction rest generalizing pre with
  | nil => exact ⟨[], by rw [List.append_nil, run_nil]⟩
  | cons path rest ih =>
    obtain ⟨moves, hmoves⟩ := ih (pre ++ [path])
    rw [List.append_assoc, List.singleton_append] at hmoves
    have h : (pre ++ path :: rest)[pre.length]? = some path := by simp
    have hcancelled : ∀ p, (during (pre ++ path :: rest) pre.length p reports (some e) records).cancelled = true :=
      fun _ => rfl
    have hone : (between (pre ++ path :: rest) pre.length reports (some e) records).run fs
        (.call :: List.replicate 2 (.work pre.length)) =
          some (between (pre ++ path :: rest) (pre.length + 1) reports (some e) records) := by
      simp only [List.replicate_succ, List.replicate_zero, run_cons, run_nil, move?_between h, move?_during h,
        Option.bind_some, step?, turn_during, hcancelled, during_ended, fail_between, if_true, Option.getD_some]
    rw [List.length_append] at hmoves
    exact ⟨_, run_trans hone hmoves⟩

end

/-- **Reports in order are one interleaving**: one task after the other gives the result and the records of
`Report.ofFiles`. -/
theorem exists_run_ofFiles (fs : FileSystem) (pre rest : List String) (reports : List Report)
    (hlen : reports.length = pre.length) (records : List Log.Record) : ∃ moves k,
      (between (pre ++ rest) pre.length (reports ++ List.replicate rest.length Report.blank) none records).run fs
        moves = some k ∧
      k.result? = some (((Report.ofFiles fs rest).result.map (reports ++ ·)).mapError .unreadable) ∧
      k.records = records ++ (Report.ofFiles fs rest).records := by
  induction rest generalizing pre reports records with
  | nil =>
    refine ⟨[], _, run_nil fs _, ?_, (List.append_nil records).symm⟩
    rw [List.append_nil, between_result?]
    rfl
  | cons path rest ih =>
    have h : (pre ++ path :: rest)[pre.length]? = some path := by simp
    cases hread : fs.readSource path with
    | error m =>
      obtain ⟨moves, hmoves⟩ := run_cancelled fs (reports ++ List.replicate (path :: rest).length Report.blank)
        (.unreadable m) (records ++ [Log.Record.file path]) (pre ++ [path]) rest
      rw [List.append_assoc, List.singleton_append, List.length_append] at hmoves
      refine ⟨_, _, run_trans (run_unreadable h hread) hmoves, ?_, ?_⟩
      · rw [Report.ofFiles_of_error hread, between_result?]
        rfl
      · rw [Report.ofFiles_of_error hread]
        rfl
    | ok source =>
      have hplaces : (reports ++ List.replicate (path :: rest).length Report.blank).set pre.length
          (Report.ofSource path source) =
            reports ++ [Report.ofSource path source] ++ List.replicate rest.length Report.blank := by
        rw [← hlen, List.length_cons, List.replicate_succ]
        simp
      have hone := run_readable (reports ++ List.replicate (path :: rest).length Report.blank) records h hread
      rw [hplaces] at hone
      obtain ⟨moves, k, hmoves, hresult, hrecords⟩ := ih (pre ++ [path]) (reports ++ [Report.ofSource path source])
        (by rw [List.length_append, List.length_append, hlen]; rfl)
        (records ++ [Log.Record.file path] ++ (Report.ofSource path source).records)
      rw [List.append_assoc pre, List.singleton_append, List.length_append] at hmoves
      refine ⟨_, k, run_trans hone hmoves, ?_, ?_⟩
      · rw [hresult, Report.ofFiles_of_ok hread]
        cases (Report.ofFiles fs rest).result with
        | error e => rfl
        | ok rs => simp [Except.map]
      · rw [hrecords, Report.ofFiles_of_ok hread]
        simp

/-- **Reports do not depend on who works when.** However the tasks are interleaved, they come to an end after at most
seven moves for each file, and no move is left exactly when there is a result. If all files can be read, it is the list
of their reports in order. Otherwise it is an error, namely what is said about a file that cannot be read. The reports
that are made one after the other, with their records, are one of the interleavings. -/
theorem run_schedule_independent (fs : FileSystem) (paths : List String) :
    (∀ moves k, (start paths).run fs moves = some k →
      moves.length ≤ 7 * paths.length ∧ ((∀ m, k.move? fs m = none) ↔ k.result?.isSome = true) ∧
      ∀ r, k.result? = some r →
        (∀ sources, paths.map fs.readSource = sources.map .ok →
          r = .ok (List.zipWith Report.ofSource paths sources)) ∧
        ((∃ path ∈ paths, ∃ m, fs.readSource path = .error m) →
          ∃ path ∈ paths, ∃ m, fs.readSource path = .error m ∧ r = .error (.unreadable m))) ∧
    ∃ moves k, (start paths).run fs moves = some k ∧
      k.result? = some ((Report.ofFiles fs paths).result.mapError .unreadable) ∧
      k.records = (Report.ofFiles fs paths).records := by
  constructor
  · intro moves k hrun
    obtain ⟨hsound, hlen⟩ := (sound_start fs paths).run hrun
    refine ⟨?_, hsound.stuck_iff, fun r hr => ⟨fun sources hsources => ?_, fun hbad => ?_⟩⟩
    · have hleft : (start paths).left = 7 * paths.length := by simp [left, start]
      omega
    · exact hsound.result_of_readable hr hsources
    · exact hsound.result_of_unreadable hr hbad
  · obtain ⟨moves, k, hrun, hresult, hrecords⟩ := exists_run_ofFiles fs [] paths [] rfl []
    refine ⟨moves, k, hrun, ?_, hrecords⟩
    rw [hresult]
    cases (Report.ofFiles fs paths).result <;> rfl

end Crew
end QuasiScript
