import Userfs.Filesystem.Contents
import Userfs.Filesystem.OverwriteCursor

namespace Userfs.Filesystem

open Ds
open Io
open Word

/-!
# Files built by appends

Several properties concern what happens to a file after its blocks have been appended.
`Built` is the state of a session at that point: some new files, and a run of requests
of whole blocks that was carried out.  Its files are striped and packed, their bytes are
where the block trees say, and no overwrite chunk has been allocated.
-/

/-- A session in which new files have grown by requests of whole blocks. -/
def Built (files : List Nat) (calls : List AppendCall) (store : Store) : Prop :=
  Exists fun start => NewFiles files start ∧
    (forall call, call ∈ calls -> call.Admissible files) ∧
    (runAll AppendCall.execute calls).run start = .ok PUnit.unit store

/-- The byte that a file has at an offset, at the place its block tree names. -/
def Store.fileByte (store : Store) (ip offset : Nat) : Option UInt8 :=
  (translation (store.inode ip).blktree offset).map (fun location => store.disk location.1 location.2)

/-- The overwrite cursors stand where they stood. -/
def SameOverwrites (store next : Store) : Prop :=
  forall ip, (next.inode ip).rwoff = (store.inode ip).rwoff ∧
    (next.inode ip).rwsoff = (store.inode ip).rwsoff

section Appends

variable {files : List Nat} {calls : List AppendCall} {store next : Store} {ip off size : Nat}
  {data : Nat -> UInt8}

theorem SameOverwrites.updateInode {change : Inode -> Inode}
    (rwoff : (change (store.inode ip)).rwoff = (store.inode ip).rwoff)
    (rwsoff : (change (store.inode ip)).rwsoff = (store.inode ip).rwsoff) :
    SameOverwrites store (store.updateInode ip change) := by
  intro other
  by_cases same : other = ip
  · rw [same, updateInode_inode_self]
    exact ⟨rwoff, rwsoff⟩
  · rw [updateInode_inode_other store change same]
    exact ⟨rfl, rfl⟩

theorem SameOverwrites.trans {first second third : Store} (before : SameOverwrites first second)
    (after : SameOverwrites second third) : SameOverwrites first third :=
  fun ip => ⟨(after ip).1.trans (before ip).1, (after ip).2.trans (before ip).2⟩

theorem sameOverwrites_appendReady (store : Store) (ip : Nat) :
    SameOverwrites store (store.appendReady ip) := by
  intro other
  by_cases due : (store.inode ip).AppendDue
  · rw [appendReady_pos due]
    by_cases same : other = ip
    · rw [same, allocateChunk_inode_self]
      have placed := Inode.place_append_rw (store.inode ip) (store.nextChunk ip).1
        (store.nextChunk ip).2
      exact ⟨placed.1, placed.2.1⟩
    · rw [(Apart.allocateChunk store ip .append).inode other same]
      exact ⟨rfl, rfl⟩
  · rw [appendReady_neg due]
    exact ⟨rfl, rfl⟩

theorem Inode.afterAppend_rw (inode : Inode) (rb : SearchTree.Rebalancing Block)
    (off size : Nat) :
    (inode.afterAppend rb off size).rwoff = inode.rwoff ∧
      (inode.afterAppend rb off size).rwsoff = inode.rwsoff := by
  unfold Inode.afterAppend Inode.noteAppend
  split <;> simp

/-- An append does not touch the overwrite cursor. -/
theorem AppendMade.sameOverwrites (made : AppendMade store next ip off size data) :
    SameOverwrites store next := by
  have ready := sameOverwrites_appendReady store ip
  refine ready.trans ?_
  intro other
  rw [made.inode]
  by_cases same : other = ip
  · rw [same, Function.update_self]
    exact Inode.afterAppend_rw _ _ _ _
  · rw [Function.update_of_ne same]
    exact ⟨rfl, rfl⟩

theorem ensures_execute_sameOverwrites {call : AppendCall} (all : AllStriped files store)
    (admissible : call.Admissible files) :
    Ensures call.execute store (fun _ next => SameOverwrites store next) (fun _ _ => True) := by
  unfold AppendCall.execute AppendCall.write
  simp only [Ensures.bind_iff, ensures_readInode, Ensures.pure_iff]
  have request := @ensures_append_request_keeping store call.ip _ all.sound
    (all.striped call.ip admissible.member) rfl call.buf call.count admissible.length
    admissible.small (fun _ middle => SameOverwrites store middle)
    (fun _ _ _ _ _ kept _ made => kept.trans made.sameOverwrites)
    (fun _ _ _ kept => kept.trans (SameOverwrites.updateInode rfl rfl)) (fun _ => ⟨rfl, rfl⟩)
  exact request.mono (fun _ _ result => result.2.2) (fun _ _ _ => trivial)

theorem Built.filed (built : Built files calls store) :
    Filed files (fun ip => contents ip calls) store := by
  rcases built with ⟨start, new, admissible, outcome⟩
  exact (Ensures.ok_iff outcome).mp (ensures_appends_filed new admissible)

/-- No overwrite chunk has been allocated. -/
theorem Built.untouched (built : Built files calls store) (member : ip ∈ files) :
    (store.inode ip).rwoff = 0 ∧ (store.inode ip).rwsoff = 0 := by
  rcases built with ⟨start, new, admissible, outcome⟩
  have run : Ensures (runAll AppendCall.execute calls) start
      (fun _ next => AllStriped files next ∧ SameOverwrites start next) (fun _ _ => True) :=
    Ensures.runAll_state
      (fun call middle (kept : AllStriped files middle ∧ SameOverwrites start middle) allowed =>
        ((ensures_execute_allStriped kept.1 allowed).and
          (ensures_execute_sameOverwrites kept.1 allowed)).mono
            (fun _ _ both => ⟨both.1, kept.2.trans both.2⟩) (fun _ _ _ => trivial))
      ⟨new.allStriped, fun _ => ⟨rfl, rfl⟩⟩ admissible
  have same := ((Ensures.ok_iff outcome).mp run).2 ip
  rcases new.created ip member with ⟨_, _, _, _, created⟩
  rw [created] at same
  exact same

/-- The extent that holds an offset of a built file. -/
theorem Built.blockSearch (built : Built files calls store) (member : ip ∈ files) {offset : Nat}
    (inside : offset < (store.inode ip).size) :
    Exists fun chunk => (store.stripes ip)[offset / chunkSize]? = some chunk ∧
      Ds.blockSearch (store.inode ip).blktree offset =
        some (extentOf (store.inode ip).size (offset / chunkSize) chunk) :=
  (built.filed.packed ip member).blockSearch (built.filed.all.striped ip member).tracked inside

/-- The block of the tree that a write path finds for an offset of a built file: it is on
a present device, it ends at a block boundary, and its end is a machine word. -/
structure Covering (inode : Inode) (offset : Nat) (block : Block) : Prop where
  found : Ds.blockSearch inode.blktree offset = some block
  device : Exists fun devid => devid < 4 ∧ block.devid = devid + 1
  limit : block.fileoff + block.size = min ((offset / chunkSize + 1) * chunkSize) inode.size
  word : block.fileoff + block.size < 2 ^ 64

theorem Built.size_lt (built : Built files calls store) (member : ip ∈ files) :
    (store.inode ip).size < 2 ^ 60 := by
  have striped := built.filed.all.striped ip member
  have covered := striped.tracked.covered
  have length := striped.accounted.length_lt
  unfold chunkSize at covered
  omega

theorem Built.aligned (built : Built files calls store) (member : ip ∈ files) :
    (store.inode ip).size % 4096 = 0 :=
  (built.filed.all.striped ip member).tracked.aligned

theorem Built.covering (built : Built files calls store) (member : ip ∈ files) {offset : Nat}
    (inside : offset < (store.inode ip).size) :
    Exists fun block => Covering (store.inode ip) offset block := by
  rcases built.blockSearch member inside with ⟨chunk, listed, found⟩
  have placed := (built.filed.all.striped ip member).tracked.placed _ chunk listed
  have bounded := built.size_lt member
  have limit : (extentOf (store.inode ip).size (offset / chunkSize) chunk).fileoff +
      (extentOf (store.inode ip).size (offset / chunkSize) chunk).size =
        min ((offset / chunkSize + 1) * chunkSize) (store.inode ip).size := by
    unfold extentOf
    simp only
    unfold chunkSize at *
    omega
  refine ⟨_, found, ⟨chunk.1, ?_, rfl⟩, limit, ?_⟩
  · rw [placed.1]
    exact Nat.mod_lt _ (by decide)
  · rw [limit]
    omega

end Appends

/-- A file of one block of ones. -/
def onesCall : AppendCall :=
  ⟨0, fun _ => 1, 4096⟩

/-- A closed run of appends to the first file, with a fact about the state it reaches. -/
theorem exists_built {calls : List AppendCall} {fact : Store -> Prop}
    (admissible : forall call, call ∈ calls -> call.Admissible [0])
    (runs : Ensures (runAll AppendCall.execute calls) freshStore (fun _ store => fact store)
      (fun _ _ => False)) :
    Exists fun store => Built [0] calls store ∧ fact store := by
  rcases runs.exists_ok with ⟨_, store, outcome, holds⟩
  exact ⟨store, ⟨freshStore, newFiles_freshStore [0], admissible, outcome⟩, holds⟩

theorem admissible_onesCall : forall call, call ∈ [onesCall] -> call.Admissible [0] := by
  intro call member
  rw [List.mem_singleton.mp member]
  exact ⟨List.mem_singleton_self 0, by decide, by decide, by decide⟩

end Userfs.Filesystem
