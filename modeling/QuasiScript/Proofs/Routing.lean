import Mathlib
import QuasiScript.Log.Journal
import QuasiScript.Proofs.AddedFiles

/-!
# Where records arrive

Of all that was called so far, what happens to a record depends on one call: the latest set-up that succeeded, unless a
reset came after it (`inForce?`). Its level decides whether the record is written, and its outlet is the only one that
changes. The journal keeps to this through handles that are opened and closed: `Wired` says that the logger in use is
the one in force, that its handle stands for the file it was opened as, and that no other handle is open. It is kept by
every call (`Wired.call`), and so it holds after any calls (`wired_after`).
-/
namespace QuasiScript
namespace Log

inductive Outlet where
  | stream (s : Stream)
  | file (parts : List String)
deriving DecidableEq

inductive Call where
  | setup (c : Config)
  | reset
  | log (r : Record)
deriving DecidableEq

namespace Config

/-- What a logger would write to. There is none if the format is unknown or the file cannot be opened. -/
def outlet? (fs : FileSystem) (c : Config) : Option Outlet :=
  match Format.parse? c.format with
  | none => none
  | some _ =>
    if c.file = "" then some (.stream (c.output.getD .standardError)) else (fs.writable c.file).toOption.map .file

def line (c : Config) (r : Record) : String := r.line ((Format.parse? c.format).getD .text) ++ "\n"

end Config

/-- The set-up in force: of the calls after the last reset the latest set-up that could be made. -/
def inForce? (fs : FileSystem) (calls : List Call) : Option Config :=
  (calls.reverse.takeWhile (· ≠ .reset)).findSome? fun
    | .setup c => if (c.outlet? fs).isSome then some c else none
    | _ => none

/-- What a call sends to an outlet, after the calls before it. -/
def sent? (fs : FileSystem) (o : Outlet) (before : List Call) : Call → Option String
  | .log r =>
    match inForce? fs before with
    | none => none
    | some c => if c.level.number ≤ r.level.number ∧ c.outlet? fs = some o then some (c.line r) else none
  | _ => none

def allSent (fs : FileSystem) (o : Outlet) : List Call → List Call → List String
  | _, [] => []
  | before, call :: later => (sent? fs o before call).toList ++ allSent fs o (before ++ [call]) later

namespace Journal

def call (j : Journal) : Call → Journal
  | .setup c => (j.setup c).2
  | .reset => j.reset
  | .log r => j.log r

def after (fs : FileSystem) (calls : List Call) : Journal := calls.foldl call (start fs)

def contents (j : Journal) : Outlet → String
  | .stream s => String.join ((j.written.filter (·.1 = s)).map (·.2 ++ "\n"))
  | .file parts => (j.files.contents? parts).getD ""

end Journal

variable {fs : FileSystem} {calls : List Call} {c : Config} {j : Journal}

/-! ## The set-up in force -/

theorem inForce?_reset (fs : FileSystem) (calls : List Call) : inForce? fs (calls ++ [.reset]) = none := by
  simp [inForce?]

theorem inForce?_log (fs : FileSystem) (calls : List Call) (r : Record) :
    inForce? fs (calls ++ [.log r]) = inForce? fs calls := by
  simp [inForce?]

theorem inForce?_setup (fs : FileSystem) (calls : List Call) (c : Config) : inForce? fs (calls ++ [.setup c]) =
    if (c.outlet? fs).isSome then some c else inForce? fs calls := by
  by_cases h : (c.outlet? fs).isSome = true <;> simp [inForce?, h]

theorem outlet?_of_unknown (h : Format.parse? c.format = none) : c.outlet? fs = none := by
  unfold Config.outlet?
  rw [h]

theorem outlet?_of_stream {format : Format} (h : Format.parse? c.format = some format) (hfile : c.file = "") :
    c.outlet? fs = some (.stream (c.output.getD .standardError)) := by
  unfold Config.outlet?
  rw [h, if_pos hfile]

theorem outlet?_of_file {format : Format} (h : Format.parse? c.format = some format) (hfile : c.file ≠ "") :
    c.outlet? fs = (fs.writable c.file).toOption.map .file := by
  unfold Config.outlet?
  rw [h, if_neg hfile]

/-! ## What the operations do -/

namespace Journal

@[simp] theorem closeFile_held (j : Journal) : j.closeFile.held = none := by
  unfold closeFile
  split <;> simp_all

@[simp] theorem closeFile_files (j : Journal) : j.closeFile.files = j.files := by
  unfold closeFile
  split <;> rfl

@[simp] theorem closeFile_written (j : Journal) : j.closeFile.written = j.written := by
  unfold closeFile
  split <;> rfl

/-- What is open after the file was closed that was held. -/
theorem closeFile_handles (j : Journal) (n : Nat) (parts : List String) :
    j.closeFile.handles[n]? = some (some parts) ↔ j.handles[n]? = some (some parts) ∧ j.held ≠ some n := by
  unfold closeFile
  cases hheld : j.held with
  | none => simp
  | some m =>
    dsimp only
    by_cases hm : m = n
    · subst hm
      simp [List.getElem?_set]
    · simp [List.getElem?_set_ne hm, hm]

theorem contents_congr {j' : Journal} (hwritten : j'.written = j.written) (hfiles : j'.files = j.files) (o : Outlet) :
    j'.contents o = j.contents o := by
  cases o with
  | stream s => rw [contents, contents, hwritten]
  | file parts => rw [contents, contents, hfiles]

theorem opened_contents (j : Journal) (parts : List String) (o : Outlet) :
    (j.opened parts).contents o = j.contents o := by
  cases o with
  | stream s => rfl
  | file q =>
    rw [contents, contents, opened, FileSystem.contents?_extend]
    simp

/-- **What a set-up does**: it fails and changes nothing, or it takes a logger into use that writes to a stream or to a
file that was opened for it. -/
theorem setup_cases (j : Journal) (c : Config) :
    c.outlet? j.files = none ∧ (∃ e, j.setup c = (.error e, j)) ∨
    ∃ format, Format.parse? c.format = some format ∧
      ((∃ s, c.outlet? j.files = some (.stream s) ∧
          j.setup c = (.ok (), j.closeFile.use ⟨c.level, format, .stream s⟩ none)) ∨
        ∃ parts, c.outlet? j.files = some (.file parts) ∧ j.files.writable c.file = .ok parts ∧
          j.setup c = (.ok (), (j.opened parts).closeFile.use ⟨c.level, format, .file j.handles.length⟩
            (some j.handles.length))) := by
  unfold setup
  cases hformat : Format.parse? c.format with
  | none => exact .inl ⟨outlet?_of_unknown hformat, _, rfl⟩
  | some format =>
    dsimp only
    unfold openFile
    by_cases hfile : c.file = ""
    · rw [if_pos hfile]
      exact .inr ⟨format, rfl, .inl ⟨_, outlet?_of_stream hformat hfile, rfl⟩⟩
    · rw [if_neg hfile, outlet?_of_file hformat hfile]
      cases hopen : j.files.writable c.file with
      | error e => exact .inl ⟨rfl, _, rfl⟩
      | ok parts => exact .inr ⟨format, rfl, .inr ⟨parts, rfl, rfl, rfl⟩⟩

def Reaches (j : Journal) : Sink → Outlet → Prop
  | .stream s, o => o = .stream s
  | .file n, o => ∃ parts, o = .file parts ∧ j.handles[n]? = some (some parts)

theorem write_file {n : Nat} {parts : List String} (h : j.handles[n]? = some (some parts)) (line : String) :
    j.write line (.file n) = { j with files := j.files.extend parts (line ++ "\n") } := by
  rw [write, h]

/-- **A line arrives at one outlet.** -/
theorem write_contents {sink : Sink} {o : Outlet} (h : j.Reaches sink o) (line : String) (o' : Outlet) :
    (j.write line sink).contents o' = j.contents o' ++ if o' = o then line ++ "\n" else "" := by
  cases sink with
  | stream s =>
    obtain rfl := h
    cases o' with
    | stream s' => by_cases hs : s = s' <;> simp [write, contents, hs, eq_comm]
    | file parts => simp [write, contents]
  | file n =>
    obtain ⟨parts, rfl, hopen⟩ := h
    rw [write_file hopen]
    cases o' with
    | stream s => simp [contents]
    | file parts' =>
      dsimp only [contents]
      rw [FileSystem.contents?_extend]
      by_cases hp : parts' = parts <;> simp [hp]

end Journal

/-! ## What holds between any two calls -/

def Sink.handle? : Sink → Option Nat
  | .stream _ => none
  | .file n => some n

/-- The logger in use is as it was asked for, and what it writes arrives where it should. -/
inductive Installed (fs : FileSystem) (j : Journal) : Option Config → Prop
  | nothing : j.logger = none → j.held = none → Installed fs j none
  | logger {c : Config} {l : Logger} {o : Outlet} : j.logger = some l → l.level = c.level →
      Format.parse? c.format = some l.format → c.outlet? fs = some o → j.Reaches l.sink o → j.held = l.sink.handle? →
      Installed fs j (some c)

/-- **What holds between any two calls.** -/
structure Wired (fs : FileSystem) (current : Option Config) (j : Journal) : Prop where
  /-- Paths lead to the same files as in the beginning. -/
  paths : ∀ path parts, j.files.writable path = .ok parts ↔ fs.writable path = .ok parts
  installed : Installed fs j current
  /-- No file is open but the one that is held. -/
  closed : ∀ n parts, j.handles[n]? = some (some parts) → j.held = some n

variable {current : Option Config}

theorem Wired.outlet?_eq (h : Wired fs current j) (c : Config) : c.outlet? j.files = c.outlet? fs := by
  unfold Config.outlet?
  have hsame : (j.files.writable c.file).toOption = (fs.writable c.file).toOption := by
    ext parts
    have := h.paths c.file parts
    cases hj : j.files.writable c.file <;> cases hfs : fs.writable c.file <;> simp_all [Except.toOption]
  rw [hsame]

theorem Wired.paths_extend (h : Wired fs current j) {parts : List String} (hroom : j.files.HasRoom parts)
    (more path : String) (q : List String) :
    (j.files.extend parts more).writable path = .ok q ↔ fs.writable path = .ok q :=
  (FileSystem.writable_extend hroom more path).trans (h.paths path q)

/-- The file that is held open is that of the logger in force. -/
theorem Wired.held_file (h : Wired fs current j) {n : Nat} (hn : j.held = some n) : ∃ c parts,
    current = some c ∧ c.outlet? fs = some (.file parts) ∧ j.handles[n]? = some (some parts) := by
  cases h.installed with
  | nothing _ hheld => cases hheld.symm.trans hn
  | @logger c l o _ _ _ hout hreach hheld =>
    cases hsink : l.sink with
    | stream s =>
      rw [hsink] at hheld
      cases hheld.symm.trans hn
    | file m =>
      rw [hsink] at hheld hreach
      obtain rfl := Option.some.inj (hheld.symm.trans hn)
      obtain ⟨parts, rfl, hopen⟩ := hreach
      exact ⟨c, parts, rfl, hout, hopen⟩

theorem wired_start (fs : FileSystem) : Wired fs none (.start fs) where
  paths _ _ := Iff.rfl
  installed := .nothing rfl rfl
  closed n parts h := by simp [Journal.start] at h

/-- Nothing is open once the file is closed that was held. -/
theorem Wired.all_closed (h : Wired fs current j) (n : Nat) (parts : List String) :
    j.closeFile.handles[n]? ≠ some (some parts) := by
  intro hopen
  obtain ⟨hn, hne⟩ := (j.closeFile_handles n parts).1 hopen
  exact hne (h.closed n parts hn)

/-- If a file was opened before, it is the one that is open. -/
theorem Wired.one_open (h : Wired fs current j) (parts : List String) (n : Nat) (q : List String) :
    (j.opened parts).closeFile.handles[n]? = some (some q) ↔ n = j.handles.length ∧ q = parts := by
  rw [Journal.closeFile_handles]
  dsimp only [Journal.opened]
  constructor
  · rintro ⟨hn, hne⟩
    by_cases hlt : n < j.handles.length
    · rw [List.getElem?_append_left hlt] at hn
      exact absurd (h.closed n q hn) hne
    · rw [List.getElem?_append_right (Nat.le_of_not_lt hlt)] at hn
      obtain ⟨hzero, hq⟩ := List.getElem?_eq_some_iff.1 hn
      rw [List.length_singleton] at hzero
      refine ⟨by omega, ?_⟩
      simpa using hq.symm
  · rintro ⟨rfl, rfl⟩
    -- the handle that was held is older, so it is not the new one that was closed
    refine ⟨by simp, fun hheld => ?_⟩
    obtain ⟨_, _, -, -, hopen⟩ := h.held_file hheld
    exact absurd (List.getElem?_eq_some_iff.1 hopen).1 (Nat.lt_irrefl _)

theorem Wired.setup (h : Wired fs (inForce? fs calls) j) (c : Config) :
    Wired fs (inForce? fs (calls ++ [.setup c])) (j.setup c).2 := by
  rw [inForce?_setup, ← h.outlet?_eq c]
  rcases j.setup_cases c with ⟨hnone, e, hsetup⟩ |
    ⟨format, hformat, ⟨s, hstream, hsetup⟩ | ⟨parts, hfile, hopen, hsetup⟩⟩
  · rw [hnone, hsetup]
    exact h
  · rw [hstream, hsetup]
    refine ⟨?_, .logger rfl rfl hformat (h.outlet?_eq c ▸ hstream) rfl rfl, fun n q hn => ?_⟩
    · change ∀ path q, j.closeFile.files.writable path = .ok q ↔ _
      rw [j.closeFile_files]
      exact h.paths
    · exact absurd hn (h.all_closed n q)
  · rw [hfile, hsetup]
    refine ⟨?_, .logger rfl rfl hformat (h.outlet?_eq c ▸ hfile) ⟨parts, rfl, ?_⟩ rfl, fun n q hn => ?_⟩
    · change ∀ path q, (j.opened parts).closeFile.files.writable path = .ok q ↔ _
      rw [(j.opened parts).closeFile_files]
      exact h.paths_extend (FileSystem.hasRoom_of_writable hopen) ""
    · exact (h.one_open parts _ _).2 ⟨rfl, rfl⟩
    · exact congrArg some ((h.one_open parts n q).1 hn).1.symm

theorem Wired.reset (h : Wired fs current j) : Wired fs none j.reset := by
  refine ⟨?_, .nothing rfl j.closeFile_held, fun n q hn => absurd hn (h.all_closed n q)⟩
  change ∀ path q, j.closeFile.files.writable path = .ok q ↔ _
  rw [j.closeFile_files]
  exact h.paths

theorem writable_of_outlet? {parts : List String} (h : c.outlet? fs = some (.file parts)) :
    fs.writable c.file = .ok parts := by
  unfold Config.outlet? at h
  split at h
  · cases h
  split at h
  · cases h
  · cases hopen : fs.writable c.file <;> simp_all [Except.toOption]

/-- A line that is written to the logger's sink leaves the logger as it is. -/
theorem Wired.write (h : Wired fs current j) {l : Logger} (hl : j.logger = some l) (line : String) :
    Wired fs current (j.write line l.sink) := by
  cases h.installed with
  | nothing hnone _ => cases hnone.symm.trans hl
  | @logger c l' o hl' hlevel hformat hout hreach hheld =>
    obtain rfl := Option.some.inj (hl'.symm.trans hl)
    cases hsink : l'.sink with
    | stream s =>
      rw [hsink] at hreach
      refine ⟨h.paths, .logger hl hlevel hformat hout ?_ hheld, h.closed⟩
      rw [hsink]
      exact hreach
    | file n =>
      rw [hsink] at hreach
      obtain ⟨parts, rfl, hopen⟩ := hreach
      rw [Journal.write_file hopen]
      -- the path that was followed when the file was opened still leads to it
      have hroom := FileSystem.hasRoom_of_writable ((h.paths c.file parts).2 (writable_of_outlet? hout))
      refine ⟨h.paths_extend hroom _, .logger hl hlevel hformat hout ?_ hheld, h.closed⟩
      rw [hsink]
      exact ⟨parts, rfl, hopen⟩

theorem Wired.log (h : Wired fs current j) (r : Record) : Wired fs current (j.log r) := by
  unfold Journal.log
  cases hl : j.logger with
  | none => exact h
  | some l =>
    dsimp only
    split
    · exact h.write hl _
    · exact h

/-- **Every call keeps what holds.** -/
theorem Wired.call (h : Wired fs (inForce? fs calls) j) (call : Call) :
    Wired fs (inForce? fs (calls ++ [call])) (j.call call) := by
  cases call with
  | setup c => exact h.setup c
  | reset =>
    rw [inForce?_reset]
    exact h.reset
  | log r =>
    rw [inForce?_log]
    exact h.log r

theorem Journal.after_concat (fs : FileSystem) (calls : List Call) (call : Call) :
    after fs (calls ++ [call]) = (after fs calls).call call :=
  List.foldl_concat ..

/-- **What holds after any calls.** -/
theorem wired_after (fs : FileSystem) (calls : List Call) : Wired fs (inForce? fs calls) (.after fs calls) := by
  induction calls using List.reverseRecOn with
  | nil => exact wired_start fs
  | append_singleton calls call ih =>
    rw [Journal.after_concat]
    exact ih.call call

/-! ## What a record does -/

theorem Wired.log_eq_self (h : Wired fs current j) {r : Record}
    (hlow : ∀ c, current = some c → ¬ c.level.number ≤ r.level.number) : j.log r = j := by
  unfold Journal.log
  cases h.installed with
  | nothing hnone _ => rw [hnone]
  | @logger c l o hl hlevel _ _ _ _ =>
    rw [hl]
    exact if_neg (by simpa [Logger.accepts, hlevel] using hlow c rfl)

/-- **A record that is important enough arrives at one outlet**, that of the logger in force. -/
theorem Wired.log_contents (h : Wired fs (some c) j) {r : Record} (hr : c.level.number ≤ r.level.number) :
    ∃ o, c.outlet? fs = some o ∧ ∀ o', (j.log r).contents o' = j.contents o' ++ if o' = o then c.line r else "" := by
  cases h.installed with
  | @logger _ l o hl hlevel hformat hout hreach _ =>
    have hlog : j.log r = j.write (r.line l.format) l.sink := by
      unfold Journal.log
      rw [hl]
      exact if_pos (by simpa [Logger.accepts, hlevel] using hr)
    refine ⟨o, hout, fun o' => ?_⟩
    rw [hlog, Journal.write_contents hreach, Config.line, hformat, Option.getD_some]

theorem setup_contents (j : Journal) (c : Config) (o : Outlet) : (j.setup c).2.contents o = j.contents o := by
  rcases j.setup_cases c with ⟨-, e, hsetup⟩ | ⟨format, -, ⟨s, -, hsetup⟩ | ⟨parts, -, -, hsetup⟩⟩
  · rw [hsetup]
  · rw [hsetup]
    exact Journal.contents_congr j.closeFile_written j.closeFile_files o
  · rw [hsetup, ← j.opened_contents parts o]
    exact Journal.contents_congr (j.opened parts).closeFile_written (j.opened parts).closeFile_files o

/-- **What a call adds to an outlet.** -/
theorem Wired.call_contents (h : Wired fs (inForce? fs calls) j) (call : Call) (o : Outlet) :
    (j.call call).contents o = j.contents o ++ (sent? fs o calls call).getD "" := by
  cases call with
  | setup c => exact (setup_contents j c o).trans String.append_empty.symm
  | reset =>
    refine Eq.trans ?_ String.append_empty.symm
    exact Journal.contents_congr j.closeFile_written j.closeFile_files o
  | log r =>
    unfold sent?
    cases hc : inForce? fs calls with
    | none =>
      rw [hc] at h
      have hself : j.log r = j := h.log_eq_self fun c hnone => by cases hnone
      exact (congrArg (Journal.contents · o) hself).trans String.append_empty.symm
    | some c =>
      rw [hc] at h
      by_cases hr : c.level.number ≤ r.level.number
      · obtain ⟨o', hout, hcontents⟩ := h.log_contents hr
        refine (hcontents o).trans (congrArg (j.contents o ++ ·) ?_)
        by_cases ho : o = o'
        · subst ho
          simp [hr, hout]
        · simp [ho, hout, Ne.symm ho]
      · have hself : j.log r = j := h.log_eq_self fun c' hc' => by
          obtain rfl := Option.some.inj hc'
          exact hr
        refine (congrArg (Journal.contents · o) hself).trans ?_
        simp [hr]

/-- **What calls add to an outlet.** -/
theorem after_contents (fs : FileSystem) (o : Outlet) (before later : List Call) :
    (Journal.after fs (before ++ later)).contents o =
      (Journal.after fs before).contents o ++ String.join (allSent fs o before later) := by
  induction later generalizing before with
  | nil => simp [allSent]
  | cons call later ih =>
    have hnext := ih (before ++ [call])
    rw [List.append_assoc, List.singleton_append] at hnext
    rw [hnext, Journal.after_concat, (wired_after fs before).call_contents call o, allSent, String.join_append,
      String.append_assoc]
    cases sent? fs o before call <;> simp

theorem Wired.log_ne_self_iff (h : Wired fs current j) (r : Record) :
    j.log r ≠ j ↔ ∃ c, current = some c ∧ c.level.number ≤ r.level.number := by
  constructor
  · intro hne
    by_contra hlow
    exact hne (h.log_eq_self fun c hc hr => hlow ⟨c, hc, hr⟩)
  · rintro ⟨c, rfl, hr⟩ hself
    obtain ⟨o, -, hcontents⟩ := h.log_contents hr
    have hlength := congrArg String.length (hcontents o)
    rw [hself, if_pos rfl, Config.line] at hlength
    simp at hlength

theorem Wired.setup_ok_iff (h : Wired fs current j) (c : Config) :
    (j.setup c).1 = .ok () ↔ (c.outlet? fs).isSome = true := by
  rw [← h.outlet?_eq c]
  rcases j.setup_cases c with ⟨hnone, e, hsetup⟩ | ⟨_, _, ⟨s, hsome, hsetup⟩ | ⟨parts, hsome, -, hsetup⟩⟩
  · simp [hnone, hsetup]
  · simp [hsome, hsetup]
  · simp [hsome, hsetup]

theorem setup_of_error {e : SetupError} (h : (j.setup c).1 = .error e) : (j.setup c).2 = j := by
  rcases j.setup_cases c with ⟨_, e', hsetup⟩ | ⟨_, _, ⟨s, _, hsetup⟩ | ⟨parts, _, _, hsetup⟩⟩
  · rw [hsetup]
  · rw [hsetup] at h
    cases h
  · rw [hsetup] at h
    cases h

theorem Wired.open_in_force (h : Wired fs current j) {n : Nat} {parts : List String}
    (hopen : j.handles[n]? = some (some parts)) : ∃ c, current = some c ∧ c.outlet? fs = some (.file parts) := by
  obtain ⟨c, parts', hc, hout, hheld⟩ := h.held_file (h.closed n parts hopen)
  obtain rfl := Option.some.inj (Option.some.inj (hopen.symm.trans hheld))
  exact ⟨c, hc, hout⟩

/-- **Where records arrive**, whatever was called before. A set-up fails if its format is unknown or its file cannot be
opened, and then it changes nothing. A record is written exactly if a set-up is in force and its level is not above
that of the record; it then arrives at the outlet of this set-up and at no other. What has arrived at an outlet stays,
and what is added later is what records send to it, in order. No file is open but that of the set-up in force. -/
theorem after_routes (fs : FileSystem) (calls : List Call) :
    (∀ c, ((Journal.after fs calls).setup c).1 = .ok () ↔ (c.outlet? fs).isSome = true) ∧
    (∀ c e, ((Journal.after fs calls).setup c).1 = .error e →
      ((Journal.after fs calls).setup c).2 = Journal.after fs calls) ∧
    (∀ r, (Journal.after fs calls).log r ≠ Journal.after fs calls ↔
      ∃ c, inForce? fs calls = some c ∧ c.level.number ≤ r.level.number) ∧
    (∀ r c, inForce? fs calls = some c → c.level.number ≤ r.level.number → ∃ o, c.outlet? fs = some o ∧
      ∀ o', ((Journal.after fs calls).log r).contents o' =
        (Journal.after fs calls).contents o' ++ if o' = o then c.line r else "") ∧
    (∀ o later, (Journal.after fs (calls ++ later)).contents o =
      (Journal.after fs calls).contents o ++ String.join (allSent fs o calls later)) ∧
    ∀ (n : Nat) parts, (Journal.after fs calls).handles[n]? = some (some parts) →
      ∃ c, inForce? fs calls = some c ∧ c.outlet? fs = some (.file parts) := by
  have h := wired_after fs calls
  refine ⟨h.setup_ok_iff, fun c e => setup_of_error, h.log_ne_self_iff, fun r c hc hr => ?_,
    fun o later => after_contents fs o calls later, fun n parts => h.open_in_force⟩
  rw [hc] at h
  exact h.log_contents hr

/-- One file under two names, with a set-up that fails and a reset in between. -/
theorem after_routes_same_file : (Journal.after ⟨["tmp"], [], []⟩
    [.setup ⟨.warn, "", none, "a"⟩, .log ⟨.error, "x", []⟩, .log ⟨.info, "low", []⟩, .setup ⟨.debug, "xml", none, "b"⟩,
      .log ⟨.warn, "y", []⟩, .reset, .log ⟨.error, "lost", []⟩, .setup ⟨.info, "text", none, "./a"⟩,
      .log ⟨.info, "z", []⟩]).contents (.file ["tmp", "a"]) =
    "level=ERROR msg=x\nlevel=WARN msg=y\nlevel=INFO msg=z\n" :=
  ((after_routes ⟨["tmp"], [], []⟩ []).2.2.2.2.1 (.file ["tmp", "a"]) _).trans rfl

end Log
end QuasiScript
