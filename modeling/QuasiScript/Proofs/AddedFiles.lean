import Mathlib
import QuasiScript.FileSystem

/-!
# Files that are added to

To add to a file changes the contents of this file and of no other (`contents?_extend`). If a path leads to the file,
then all paths lead to the same files as before (`writable_extend`): the file itself may be new, but it lies in a
directory that was there, and a path through the file led nowhere before.
-/
namespace QuasiScript

/-- The file at a place, also if it is not there yet. -/
def Place.file? : Place → Option (List String)
  | .directory _ => none
  | .file parts | .vacant parts => some parts

namespace FileSystem
variable {fs : FileSystem} {parts q : List String}

theorem lookup_filter_fst (keep : List String → Bool) (q : List String) (files : List (List String × String)) :
    (files.filter fun f => keep f.1).lookup q = if keep q then files.lookup q else none := by
  induction files with
  | nil => simp
  | cons f files ih =>
    obtain ⟨key, s⟩ := f
    by_cases hq : q = key
    · subst hq
      cases hkeep : keep q <;> simp [hkeep, ih]
    · have hne : (q == key) = false := beq_eq_false_iff_ne.2 hq
      cases hkeep : keep key <;> simp [hkeep, List.lookup_cons, hne, ih]

theorem contents?_set (fs : FileSystem) (parts q : List String) (s : String) :
    (fs.set parts s).contents? q = if q = parts then some s else fs.contents? q := by
  unfold contents? set
  rw [List.lookup_append, lookup_filter_fst (· != parts)]
  by_cases h : q = parts
  · subst h
    simp
  · have hlast : [(parts, s)].lookup q = none := by rw [List.lookup_cons, beq_eq_false_iff_ne.2 h, List.lookup_nil]
    rw [if_pos (by simpa using h), hlast, Option.or_none, if_neg h]

/-- **Adding changes one file.** -/
theorem contents?_extend (fs : FileSystem) (parts q : List String) (more : String) :
    ((fs.extend parts more).contents? q).getD "" =
      (fs.contents? q).getD "" ++ if q = parts then more else "" := by
  unfold extend
  rw [contents?_set]
  by_cases h : q = parts
  · subst h
    simp
  · simp [h]

/-! ## Directories -/

theorem isDirectory_iff : fs.isDirectory parts = true ↔
    (∃ d ∈ fs.working :: fs.folders, parts <+: d) ∨ ∃ f ∈ fs.files, parts <+: f.1 ∧ f.1 ≠ parts := by
  simp [isDirectory]

theorem isDirectory_of_prefix (h : fs.isDirectory parts = true) (hq : q <+: parts) : fs.isDirectory q = true := by
  rw [isDirectory_iff] at h ⊢
  rcases h with ⟨d, hd, hparts⟩ | ⟨f, hf, hparts, hne⟩
  · exact .inl ⟨d, hd, hq.trans hparts⟩
  · refine .inr ⟨f, hf, hq.trans hparts, ?_⟩
    rintro rfl
    exact hne (hq.eq_of_length_le hparts.length_le)

/-- **A file can be here**: it lies in directories and is not one of them. -/
structure HasRoom (fs : FileSystem) (parts : List String) : Prop where
  around : ∀ q, q <+: parts → q ≠ parts → fs.isDirectory q = true
  own : (fs.contents? parts).isSome = true ∨ fs.isDirectory parts = false

theorem HasRoom.of_contents? (h : (fs.contents? parts).isSome = true) : fs.HasRoom parts := by
  refine ⟨fun q hq hne => ?_, .inl h⟩
  obtain ⟨s, hs⟩ := Option.isSome_iff_exists.1 h
  obtain ⟨before, after, hfiles, -⟩ := List.lookup_eq_some_iff.1 hs
  exact isDirectory_iff.2 (.inr ⟨(parts, s), by rw [hfiles]; simp, hq, Ne.symm hne⟩)

theorem isDirectory_extend (h : fs.HasRoom parts) (more : String) (q : List String) :
    (fs.extend parts more).isDirectory q = fs.isDirectory q := by
  rw [Bool.eq_iff_iff, isDirectory_iff]
  constructor
  · rintro (hd | ⟨f, hf, hq, hne⟩)
    · exact isDirectory_iff.2 (.inl hd)
    · rcases List.mem_append.1 hf with hf | hf
      · exact isDirectory_iff.2 (.inr ⟨f, (List.mem_filter.1 hf).1, hq, hne⟩)
      · obtain rfl := List.mem_singleton.1 hf
        exact h.around q hq (Ne.symm hne)
  · intro hq
    rcases isDirectory_iff.1 hq with hd | ⟨f, hf, hq, hne⟩
    · exact .inl hd
    · by_cases hparts : f.1 = parts
      · exact .inr ⟨_, List.mem_append_right _ List.mem_cons_self, hparts ▸ hq, hparts ▸ hne⟩
      · exact .inr ⟨f, List.mem_append_left _ (List.mem_filter.2 ⟨hf, by simp [hparts]⟩), hq, hne⟩

/-! ## Where paths lead -/

def Reached (fs : FileSystem) : Place → Prop
  | .directory here => fs.isDirectory here = true
  | .file parts | .vacant parts => fs.HasRoom parts

theorem reached_enter {here : List String} (h : fs.isDirectory here = true) (part : String) :
    fs.Reached (fs.enter here part) := by
  unfold enter
  split
  · exact h
  split
  · exact isDirectory_of_prefix h (List.dropLast_prefix here)
  split
  · exact .of_contents? ‹_›
  split
  · assumption
  · refine ⟨fun q hq hne => isDirectory_of_prefix h ?_, .inr (Bool.eq_false_iff.2 ‹_›)⟩
    exact (List.prefix_concat_iff.1 hq).resolve_left hne

theorem reached_follow : ∀ {rest : List String} {place place' : Place}, fs.Reached place →
    fs.follow place rest = .ok place' → fs.Reached place' := by
  intro rest
  induction rest with
  | nil =>
    intro place place' h hfollow
    rw [follow] at hfollow
    cases hfollow
    exact h
  | cons part rest ih =>
    intro place place' h hfollow
    cases place with
    | directory here =>
      rw [follow] at hfollow
      split at hfollow
      · cases hfollow
      · exact ih (reached_enter h part) hfollow
    | file parts => cases hfollow
    | vacant parts => cases hfollow

/-- To open a path is to follow parts, the same in all file systems, from the root or from the working directory. -/
theorem resolve_cases (path : String) : (∃ e, ∀ fs : FileSystem, fs.resolve path = .error e) ∨
    ∃ rest, (∀ fs : FileSystem, fs.resolve path = fs.follow (.directory []) rest) ∨
      ∀ fs : FileSystem, fs.resolve path = fs.follow (.directory fs.working) rest := by
  unfold resolve
  cases pathError? path with
  | some e => exact .inl ⟨e, fun _ => rfl⟩
  | none =>
    dsimp only
    split
    · exact .inl ⟨_, fun _ => rfl⟩
    · exact .inr ⟨_, .inl fun _ => rfl⟩
    · exact .inr ⟨_, .inr fun _ => rfl⟩

theorem reached_resolve {path : String} {place : Place} (h : fs.resolve path = .ok place) : fs.Reached place := by
  have hroot : fs.Reached (.directory []) :=
    isDirectory_iff.2 (.inl ⟨fs.working, List.mem_cons_self, List.nil_prefix⟩)
  have hworking : fs.Reached (.directory fs.working) :=
    isDirectory_iff.2 (.inl ⟨fs.working, List.mem_cons_self, List.prefix_rfl⟩)
  rcases resolve_cases path with ⟨e, he⟩ | ⟨rest, hrest | hrest⟩
  · rw [he] at h
    cases h
  · exact reached_follow hroot (hrest fs ▸ h)
  · exact reached_follow hworking (hrest fs ▸ h)

theorem writable_eq_ok_iff {path : String} :
    fs.writable path = .ok parts ↔ ∃ place, fs.resolve path = .ok place ∧ place.file? = some parts := by
  unfold writable
  split <;> simp_all [Place.file?]

theorem hasRoom_of_writable {path : String} (h : fs.writable path = .ok parts) : fs.HasRoom parts := by
  obtain ⟨place, hresolve, hfile⟩ := writable_eq_ok_iff.1 h
  have hreached := reached_resolve hresolve
  cases place with
  | directory here => cases hfile
  | file p =>
    obtain rfl := Option.some.inj hfile
    exact hreached
  | vacant p =>
    obtain rfl := Option.some.inj hfile
    exact hreached

/-- Two places are the same but for a file that is there at the second. -/
def SameBut (parts : List String) (x y : Place) : Prop := x = y ∨ x = .vacant parts ∧ y = .file parts

theorem enter_extend (h : fs.HasRoom parts) (more : String) (here : List String) (part : String) :
    SameBut parts (fs.enter here part) ((fs.extend parts more).enter here part) := by
  unfold enter
  rw [isDirectory_extend h]
  unfold extend
  rw [contents?_set]
  by_cases hq : here ++ [part] = parts
  · rw [if_pos hq, hq]
    split
    · exact .inl rfl
    split
    · exact .inl rfl
    -- here the file is now, and it was here before or nothing was
    rcases h.own with hsome | hdir
    · rw [if_pos hsome]
      exact .inl rfl
    · rw [hdir]
      split
      · exact .inl rfl
      · exact .inr ⟨rfl, rfl⟩
  · rw [if_neg hq]
    exact .inl rfl

theorem follow_extend (h : fs.HasRoom parts) (more : String) : ∀ {rest : List String} {x y : Place},
    SameBut parts x y → ((fs.extend parts more).follow y rest).toOption.bind Place.file? =
      (fs.follow x rest).toOption.bind Place.file? := by
  intro rest
  induction rest with
  | nil =>
    intro x y hxy
    rw [follow, follow]
    rcases hxy with rfl | ⟨rfl, rfl⟩ <;> rfl
  | cons part rest ih =>
    intro x y hxy
    rcases hxy with rfl | ⟨rfl, rfl⟩
    · cases x with
      | directory here =>
        rw [follow, follow]
        split
        · rfl
        · exact ih (enter_extend h more here part)
      | file p => rfl
      | vacant p => rfl
    · -- a path through the file fails, for want of a directory if not for want of the file
      rfl

/-- **Adding to a file leaves all paths to files as they are.** -/
theorem writable_extend (h : fs.HasRoom parts) (more path : String) :
    (fs.extend parts more).writable path = .ok q ↔ fs.writable path = .ok q := by
  have hsame : ((fs.extend parts more).resolve path).toOption.bind Place.file? =
      (fs.resolve path).toOption.bind Place.file? := by
    rcases resolve_cases path with ⟨e, he⟩ | ⟨rest, hrest | hrest⟩
    · rw [he, he]
    · rw [hrest, hrest]
      exact follow_extend h more (.inl rfl)
    · rw [hrest, hrest]
      exact follow_extend h more (.inl rfl)
  have hread : ∀ fs : FileSystem, fs.writable path = .ok q ↔ (fs.resolve path).toOption.bind Place.file? = some q := by
    intro fs
    rw [writable_eq_ok_iff]
    cases fs.resolve path <;> simp [Except.toOption]
  rw [hread, hread, hsame]

end FileSystem
end QuasiScript
