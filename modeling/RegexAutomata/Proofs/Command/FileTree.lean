/-
Reading and writing in a tree of files.

A path on which a file can be written leads through directories to a place where there is none. A
write changes no directory, so a path that leads somewhere leads there afterwards too.

* `FileTree.Reads`, `FileTree.Writes` — what can be read and written;
* `readFile_run`, `writeFile_run` — and so it is read and written;
* `FileTree.Writes.store` — what can be written can be written after another write.
-/
import RegexAutomata.Command.FileTree
import RegexAutomata.Command.Run
import Mathlib.Tactic.SplitIfs

namespace RegexAutomata.Command

/-- What is at a place when content was written to it. -/
def Entry.written (content : Bytes) : Option Entry → Entry
  | some .sink => .sink
  | _ => .file content

theorem Entry.written_ne_directory (content : Bytes) (old : Option Entry) :
    written content old ≠ .directory := by
  unfold written
  split <;> nofun

namespace FileTree

variable {tree : FileTree} {path : Path} {place other start : Place} {names : List Text}
  {file file' : Option Path} {content : Bytes}

/-- Content at a place, unless all that is written there is lost. -/
def store (tree : FileTree) (place : Place) (content : Bytes) : FileTree :=
  if tree.lookup? place = some .sink then tree else tree.put place (.file content)

theorem lookup_store_self (tree : FileTree) (place : Place) (content : Bytes) :
    (tree.store place content).lookup? place =
      some (Entry.written content (tree.lookup? place)) := by
  rw [store]
  split_ifs with h
  · rw [h]
    rfl
  · rw [lookup_put_self, Option.some.injEq]
    unfold Entry.written
    split
    · contradiction
    · rfl

theorem lookup_store_of_ne (h : other ≠ place) (tree : FileTree) (content : Bytes) :
    (tree.store place content).lookup? other = tree.lookup? other := by
  rw [store]
  split_ifs
  · rfl
  · exact lookup_put_of_ne h tree _

/-- Directories stay where they are, and none are made. -/
theorem lookup_store_eq_directory_iff (h : tree.lookup? place ≠ some .directory) :
    (tree.store place content).lookup? other = some .directory ↔
      tree.lookup? other = some .directory := by
  by_cases hother : other = place
  · subst hother
    rw [lookup_store_self, Option.some.injEq]
    exact iff_of_false (Entry.written_ne_directory content _) h
  · rw [lookup_store_of_ne hother]

theorem walk_store (h : tree.lookup? place ≠ some .directory)
    (hwalk : tree.walk start names = .ok other) :
    (tree.store place content).walk start names = .ok other := by
  induction names generalizing start with
  | nil => exact hwalk
  | cons name names ih =>
    rw [walk] at hwalk ⊢
    -- a walk that comes to an end goes through directories only
    cases hstart : tree.lookup? start with
    | none => simp [hstart] at hwalk
    | some e =>
      cases e with
      | file => simp [hstart] at hwalk
      | sink => simp [hstart] at hwalk
      | directory =>
        rw [(lookup_store_eq_directory_iff h).mpr hstart]
        rw [hstart] at hwalk
        dsimp only at hwalk ⊢
        split_ifs at hwalk ⊢
        · exact ih hwalk
        · exact ih hwalk

theorem place_store (h : tree.lookup? place ≠ some .directory)
    (hplace : tree.place path = .ok other) :
    (tree.store place content).place path = .ok other := by
  have hcurrent : (tree.store place content).current = tree.current := by
    rw [store]
    split_ifs <;> rfl
  rw [FileTree.place] at hplace ⊢
  rw [hcurrent]
  split_ifs at hplace ⊢
  · exact walk_store h hplace
  · exact walk_store h hplace

/-- A file can be read and has content. -/
def Reads (tree : FileTree) (file : Option Path) (content : Bytes) : Prop :=
  ∃ path, file = some path ∧ path.holdsNull = false ∧ tree.read path = .ok content

/-- A file can be written: its path leads to a place at which there is no directory. -/
structure Writes (tree : FileTree) (file : Option Path) (place : Place) : Prop where
  leads : ∃ path, file = some path ∧ path.holdsNull = false ∧ tree.place path = .ok place
  lookup_ne : tree.lookup? place ≠ some .directory

theorem Writes.store (h : tree.Writes file place) (h' : tree.Writes file' other)
    (content : Bytes) : (tree.store place content).Writes file' other := by
  obtain ⟨path, hpath, hnull, hplace⟩ := h'.leads
  exact ⟨⟨path, hpath, hnull, place_store h.lookup_ne hplace⟩,
    fun hdir => h'.lookup_ne ((lookup_store_eq_directory_iff h.lookup_ne).mp hdir)⟩

theorem write_eq_store (h : tree.lookup? place ≠ some .directory)
    (hplace : tree.place path = .ok place) (content : Bytes) :
    tree.write path content = .ok (tree.store place content) := by
  rw [write, hplace, store]
  dsimp only
  split
  · contradiction
  · next hsink => rw [if_pos hsink]
  · next hsink => rw [if_neg hsink]

end FileTree

open FileTree

variable {tree : FileTree} {file : Option Path} {place : Place} {content : Bytes}

theorem readFile_run (h : tree.Reads file content) :
    (readFile disk file).run.run tree = (.ok content, tree) := by
  obtain ⟨path, rfl, hnull, hread⟩ := h
  have husable : usablePath true (some path) = .ok path := by simp [usablePath, hnull]
  rw [readFile, husable]
  show ((tree.read path).mapError (FileTrouble.disk · path), tree) = _
  rw [hread]
  rfl

theorem writeFile_run (h : tree.Writes file place) (t : Text) :
    (writeFile disk file t).run.run tree = (.ok (), tree.store place (Utf8.encode t)) := by
  obtain ⟨path, rfl, hnull, hplace⟩ := h.leads
  have husable : usablePath false (some path) = .ok path := by simp [usablePath, hnull]
  rw [writeFile, husable]
  show StateT.run (disk.write path (Utf8.encode t) >>= fun r =>
    pure (r.mapError (FileTrouble.disk · path))) tree = _
  simp only [disk, StateT.run_bind, StateT.run_get, pure_bind, write_eq_store h.lookup_ne hplace]
  rfl

end RegexAutomata.Command
