import Mathlib.Data.List.Perm.Subperm
import Userfs.Global.Defs
import Userfs.Library.LinkedRing
import Userfs.Library.Program
import Userfs.Library.RecentKeys
import Userfs.Library.Word

namespace Userfs.Filesystem

open Word

/-!
# The LRU of names and inode numbers

`lru.c` remembers the inode numbers of the names used last.  A node lies in two intrusive
lists at once: in `lru_nodes`, oldest first, and in the list of the hash slot of its key.
Once `node_size` nodes exist, a new key takes over the oldest node, which is unlinked from
both lists and linked again.

Keys are compared as strings here.  The code calls `strcmp` on a copy of the key without
terminator.
-/

namespace InodeLru

/-- The list heads of the structure: the two of `inode_lru_t` and the two of every node.
`poison` is the null pointer that `list_del` stores. -/
inductive Link where
  | lruNodes
  | hashSlot (idx : Nat)
  | lruList (node : Nat)
  | hashList (node : Nat)
  | poison
deriving DecidableEq, Repr

/-- `lru_node_t`: the key and the inode number.  The length of the key is not read again. -/
structure Node where
  key : List UInt8
  ino : Nat
deriving DecidableEq, Repr

/-- `inode_lru_t`.  Nodes are named by the order of their allocation. -/
structure State where
  numSlot : Nat
  nodeSize : Nat
  links : Links Link
  node : Nat -> Node
  numNodes : Nat

/-- Programs over the LRU. -/
abbrev Lru := EStateM Fault State

/-- `malloc_lru`: all lists are empty. -/
def mallocLru (numSlot nodeSize : Nat) : State where
  numSlot := numSlot
  nodeSize := nodeSize
  links := ⟨id, id⟩
  node := fun _ => ⟨[], 0⟩
  numNodes := 0

/-- A `char` converted to `unsigned long`. -/
def signExtend (byte : UInt8) : Nat :=
  if byte.toNat < 128 then byte.toNat else byte.toNat + (2 ^ 64 - 256)

/-- `hashname`. -/
def hashname (key : List UInt8) : Nat :=
  key.foldl (fun hash byte => low 64 (hash * 131 + signExtend byte)) 0

/-- The slot of a key. -/
def slotOf (numSlot : Nat) (key : List UInt8) : Nat :=
  hashname key % numSlot

/-- `list_entry` for `hash_list`. -/
def hashEntry : Link -> Option Nat
  | .hashList node => some node
  | _ => none

/-- The comparison in `find_lru_node` for the entry at a link. -/
def compareKey (lru : State) (key : List UInt8) (link : Link) : Except Fault Bool :=
  match hashEntry link with
  | some node => .ok (decide (key = (lru.node node).key))
  | none => .error .segfault

/-- `find_lru_node`. -/
def findLruNode (key : List UInt8) : Lru (Option Nat) := do
  let lru ← get
  let head := Link.hashSlot (slotOf lru.numSlot key)
  match lru.links.find .outOfFuel (compareKey lru key) head (lru.numNodes + 1) (lru.links.next head) with
  | .ok found => pure (found.bind hashEntry)
  | .error fault => throw fault

/-- `new_or_expire_lru_node`.  The first entry of an empty list is no node. -/
def newOrExpireLruNode : Lru Nat := do
  let lru ← get
  if lru.nodeSize ≤ lru.numNodes then
    match lru.links.next .lruNodes with
    | .lruList node => do
        modify (fun lru => { lru with
          links := (lru.links.listDelInit (.lruList node)).listDelInit (.hashList node) })
        pure node
    | _ => throw .segfault
  else do
    modify (fun lru => { lru with
      numNodes := lru.numNodes + 1
      links := (lru.links.initListHead (.hashList lru.numNodes)).initListHead (.lruList lru.numNodes) })
    pure lru.numNodes

/-- The first part of `insert_lru_node`: a node that has the key moves to the tail. -/
def touch (node ino : Nat) : Lru Int := do
  modify (fun lru => { lru with links := lru.links.listDel .poison (.lruList node) })
  modify (fun lru => { lru with
    node := Function.update lru.node node { lru.node node with ino := ino } })
  modify (fun lru => { lru with links := lru.links.listAddTail (.lruList node) .lruNodes })
  pure 0

/-- The second part: a node for a new key. -/
def enter (key : List UInt8) (ino : Nat) : Lru Int := do
  let node ← newOrExpireLruNode
  modify (fun lru => { lru with node := Function.update lru.node node ⟨key, ino⟩ })
  modify (fun lru => { lru with links := lru.links.listAddTail (.lruList node) .lruNodes })
  modify (fun lru => { lru with
    links := lru.links.listAddTail (.hashList node) (.hashSlot (slotOf lru.numSlot key)) })
  pure 0

/-- `insert_lru_node`. -/
def insertLruNode (key : List UInt8) (ino : Nat) : Lru Int := do
  if key = [] ∨ ino = 0 then pure (-1)
  else
    match ← findLruNode key with
    | some node => touch node ino
    | none => enter key ino

/-- `lru_upsert` without its message. -/
def lruUpsert (call : List UInt8 × Nat) : Lru PUnit := do
  let _ ← insertLruNode call.1 call.2
  pure PUnit.unit

/-! ## The two lists of a node -/

/-- A slot holds exactly the listed nodes that belong to it. -/
structure Slot (links : Links Link) (nodes : List Nat) (slot : Nat -> Nat) (idx : Nat)
    (members : List Nat) : Prop where
  ring : links.Ring (.hashSlot idx) (members.map .hashList)
  members : forall node, node ∈ members <-> node ∈ nodes ∧ slot node = idx

/-- The links hold `lru_nodes` with some nodes in order, and every slot the nodes that
belong to it. -/
structure Linked (links : Links Link) (numSlot : Nat) (nodes : List Nat) (slot : Nat -> Nat) : Prop where
  ring : links.Ring .lruNodes (nodes.map .lruList)
  slots : forall idx, idx < numSlot -> Exists fun members => Slot links nodes slot idx members

theorem lruList_injective : Function.Injective Link.lruList :=
  fun _ _ equal => Link.lruList.inj equal

theorem hashList_injective : Function.Injective Link.hashList :=
  fun _ _ equal => Link.hashList.inj equal

/-- The links of a slot are no links of `lru_nodes`. -/
theorem slot_apart (idx : Nat) (members nodes : List Nat) (link : Link)
    (member : link ∈ .hashSlot idx :: members.map .hashList) : link ∉ .lruNodes :: nodes.map .lruList := by
  intro other
  rcases List.mem_cons.mp member with rfl | inside
  · simp at other
  · rcases List.mem_map.mp inside with ⟨node, _, rfl⟩
    simp at other

/-- The links of different slots are different. -/
theorem slots_apart {idx other : Nat} {members others : List Nat} (different : idx ≠ other)
    (disjoint : forall node, node ∈ members -> node ∉ others) (link : Link)
    (member : link ∈ .hashSlot idx :: members.map .hashList) :
    link ∉ .hashSlot other :: others.map .hashList := by
  intro inOther
  rcases List.mem_cons.mp member with rfl | inside
  · simp [different] at inOther
  · rcases List.mem_map.mp inside with ⟨node, inMembers, rfl⟩
    rcases List.mem_cons.mp inOther with impossible | inOthers
    · cases impossible
    · exact disjoint node inMembers ((List.mem_map_of_injective hashList_injective).mp inOthers)

theorem mem_without {front back : List Nat} {removed : Nat} (nodup : (front ++ removed :: back).Nodup)
    (node : Nat) : node ∈ front ++ back <-> node ∈ front ++ removed :: back ∧ node ≠ removed := by
  have absent := (List.nodup_cons.mp (List.nodup_middle.mp nodup)).1
  constructor
  · intro member
    refine ⟨((List.sublist_cons_self _ back).append_left front).subset member, fun equal => ?_⟩
    exact absent (by rw [← equal]; exact member)
  · rintro ⟨member, other⟩
    simpa [other] using member

section Linked

variable {links other : Links Link} {numSlot node idx : Nat} {nodes front back : List Nat}
  {slot : Nat -> Nat}

theorem Linked.nodup (linked : Linked links numSlot nodes slot) : nodes.Nodup :=
  (List.nodup_cons.mp linked.ring.nodup).2.of_map _

theorem Slot.nodup {members : List Nat} (held : Slot links nodes slot idx members) : members.Nodup :=
  (List.nodup_cons.mp held.ring.nodup).2.of_map _

/-- A slot is not disturbed by changes to links of other lists, or to the order of the
listed nodes. -/
theorem Slot.keep {members reordered : List Nat} {moved : Nat -> Nat}
    (held : Slot links nodes slot idx members)
    (agree : links.Agree other (.hashSlot idx :: members.map .hashList))
    (same : forall node, (node ∈ nodes ∧ slot node = idx) <-> (node ∈ reordered ∧ moved node = idx)) :
    Slot other reordered moved idx members :=
  ⟨held.ring.congr agree, fun node => (held.members node).trans (same node)⟩

/-- Moving a node to the tail of `lru_nodes`. -/
theorem Linked.rotate (linked : Linked links numSlot (front ++ node :: back) slot) :
    Linked ((links.listDel .poison (.lruList node)).listAddTail (.lruList node) .lruNodes) numSlot
      ((front ++ back) ++ [node]) slot := by
  have ring := linked.ring
  have absent := (List.nodup_cons.mp (List.nodup_middle.mp linked.nodup)).1
  rw [List.map_append, List.map_cons] at ring
  have removed := ring.unlink .poison
  rw [← List.map_append] at removed
  have fresh : Link.lruList node ∉ Link.lruNodes :: (front ++ back).map .lruList := by
    rw [List.mem_cons, List.mem_map_of_injective lruList_injective]
    rintro (impossible | member)
    · cases impossible
    · exact absent member
  constructor
  · rw [List.map_append]
    exact removed.addTail fresh
  · intro idx bound
    rcases linked.slots idx bound with ⟨members, held⟩
    have apart := slot_apart idx members
    refine ⟨members, held.keep ((ring.agree_unlink .poison ?_).trans (removed.agree_addTail ?_)) ?_⟩
    · intro link member
      simpa using apart (front ++ node :: back) link member
    · intro link member inside
      refine apart (node :: (front ++ back)) link member ?_
      simp only [List.map_cons, List.mem_cons] at inside ⊢
      tauto
    · intro other
      simp only [List.mem_append, List.mem_cons, List.not_mem_nil, or_false]
      tauto

/-- Unlinking a node from both of its lists. -/
theorem Linked.drop (linked : Linked links numSlot (front ++ node :: back) slot)
    (bound : slot node < numSlot) :
    Linked ((links.listDelInit (.lruList node)).listDelInit (.hashList node)) numSlot
      (front ++ back) slot := by
  have ring := linked.ring
  rw [List.map_append, List.map_cons] at ring
  have lruRing := ring.unlink (.lruList node)
  have agreeLru : forall (idx : Nat) (members : List Nat),
      links.Agree (links.listDelInit (.lruList node)) (.hashSlot idx :: members.map .hashList) := by
    intro idx members
    refine ring.agree_unlink (.lruList node) (fun link member => ?_)
    simpa using slot_apart idx members (front ++ node :: back) link member
  -- the slot of the node, split at the node
  rcases linked.slots _ bound with ⟨members, held⟩
  have here := (held.members node).mpr ⟨by simp, rfl⟩
  rcases List.append_of_mem here with ⟨before, behind, split⟩
  subst split
  have slotRing := held.ring.congr (agreeLru _ _)
  rw [List.map_append, List.map_cons] at slotRing
  have hashRing := slotRing.unlink (.hashList node)
  rw [← List.map_append] at lruRing hashRing
  constructor
  · refine lruRing.congr (slotRing.agree_unlink (.hashList node) (fun link member inside => ?_))
    rw [← List.map_cons, ← List.map_append] at inside
    exact slot_apart _ _ _ link inside member
  · intro idx inRange
    by_cases own : idx = slot node
    · subst own
      refine ⟨before ++ behind, hashRing, fun other => ?_⟩
      rw [mem_without held.nodup, mem_without linked.nodup, held.members]
      tauto
    · rcases linked.slots idx inRange with ⟨others, heldOther⟩
      refine ⟨others, heldOther.keep ((agreeLru _ _).trans
        (slotRing.agree_unlink (.hashList node) (fun link member inside => ?_))) ?_⟩
      · rw [← List.map_cons, ← List.map_append] at inside
        refine slots_apart own (fun other inOthers inMembers => own ?_) link member inside
        exact ((heldOther.members other).mp inOthers).2.symm.trans ((held.members other).mp inMembers).2
      · intro other
        rw [mem_without linked.nodup]
        constructor
        · rintro ⟨member, belongs⟩
          exact ⟨⟨member, fun equal => own (by rw [← belongs, equal])⟩, belongs⟩
        · rintro ⟨⟨member, _⟩, belongs⟩
          exact ⟨member, belongs⟩

/-- Linking a node into both lists. -/
theorem Linked.add (linked : Linked links numSlot nodes slot) (absent : node ∉ nodes)
    (bound : idx < numSlot) :
    Linked ((links.listAddTail (.lruList node) .lruNodes).listAddTail (.hashList node) (.hashSlot idx))
      numSlot (nodes ++ [node]) (Function.update slot node idx) := by
  have fresh : Link.lruList node ∉ Link.lruNodes :: nodes.map .lruList := by
    rw [List.mem_cons, List.mem_map_of_injective lruList_injective]
    rintro (impossible | member)
    · cases impossible
    · exact absent member
  have lruRing := linked.ring.addTail fresh
  have agreeLru : forall (idx : Nat) (members : List Nat), links.Agree (links.listAddTail (.lruList node) .lruNodes)
      (.hashSlot idx :: members.map .hashList) := by
    intro idx members
    refine linked.ring.agree_addTail (fun link member inside => ?_)
    refine slot_apart idx members (node :: nodes) link member ?_
    simp only [List.map_cons, List.mem_cons] at inside ⊢
    tauto
  rcases linked.slots idx bound with ⟨members, held⟩
  have outside : node ∉ members := fun member => absent ((held.members node).mp member).1
  have slotRing := held.ring.congr (agreeLru _ _)
  have freshHash : Link.hashList node ∉ Link.hashSlot idx :: members.map .hashList := by
    rw [List.mem_cons, List.mem_map_of_injective hashList_injective]
    rintro (impossible | member)
    · cases impossible
    · exact outside member
  have moved : forall other, other ∈ nodes -> Function.update slot node idx other = slot other := by
    intro other member
    exact Function.update_of_ne (fun equal => absent (by rw [← equal]; exact member)) _ _
  constructor
  · rw [List.map_append]
    refine lruRing.congr (slotRing.agree_addTail (fun link member inside => ?_))
    rw [← List.map_singleton, ← List.map_append] at member
    refine slot_apart idx (node :: members) _ link ?_ member
    simp only [List.map_cons, List.mem_cons] at inside ⊢
    tauto
  · intro other inRange
    by_cases own : other = idx
    · subst own
      refine ⟨members ++ [node], ?_, fun candidate => ?_⟩
      · rw [List.map_append]
        exact slotRing.addTail freshHash
      · rw [List.mem_append, List.mem_append, List.mem_singleton, held.members]
        by_cases same : candidate = node
        · subst same
          simp
        · rw [Function.update_of_ne same]
          tauto
    · rcases linked.slots other inRange with ⟨others, heldOther⟩
      refine ⟨others, heldOther.keep ((agreeLru _ _).trans
        (slotRing.agree_addTail (fun link member inside => ?_))) ?_⟩
      · refine slots_apart own (fun candidate inOthers inMembers => ?_) link member
          (?_ : link ∈ .hashSlot idx :: (node :: members).map .hashList)
        · rcases List.mem_cons.mp inMembers with equal | inside
          · exact absent (by rw [← equal]; exact ((heldOther.members candidate).mp inOthers).1)
          · exact own (((heldOther.members candidate).mp inOthers).2.symm.trans
              ((held.members candidate).mp inside).2)
        · simp only [List.map_cons, List.mem_cons] at inside ⊢
          tauto
      · intro candidate
        by_cases same : candidate = node
        · subst same
          rw [Function.update_self]
          constructor
          · exact fun both => absurd both.1 absent
          · exact fun both => absurd both.2.symm own
        · rw [Function.update_of_ne same]
          simp [same]

/-- Initialising the links of a node that is in no list. -/
theorem Linked.init (linked : Linked links numSlot nodes slot) (absent : node ∉ nodes) :
    Linked ((links.initListHead (.hashList node)).initListHead (.lruList node)) numSlot nodes slot := by
  constructor
  · refine linked.ring.congr ((Links.agree_point _ ?_).trans (Links.agree_point _ ?_))
    · simp
    · simpa using absent
  · intro idx bound
    rcases linked.slots idx bound with ⟨members, held⟩
    refine ⟨members, held.keep ((Links.agree_point _ ?_).trans (Links.agree_point _ ?_)) (fun _ => Iff.rfl)⟩
    · simpa using fun member => absent ((held.members node).mp member).1
    · simp

end Linked

/-! ## Insertions -/

/-- The slot that the key of a node belongs to. -/
def State.slotOfNode (lru : State) (node : Nat) : Nat :=
  slotOf lru.numSlot (lru.node node).key

/-- What a node remembers. -/
def State.entry (lru : State) (node : Nat) : List UInt8 × Nat :=
  ((lru.node node).key, (lru.node node).ino)

/-- Give a node new contents and set the links. -/
def State.write (lru : State) (node : Nat) (contents : Node) (links : Links Link) : State :=
  { lru with node := Function.update lru.node node contents, links := links }

theorem State.slotOfNode_write (lru : State) (node : Nat) (contents : Node) (links : Links Link) :
    (lru.write node contents links).slotOfNode =
      Function.update lru.slotOfNode node (slotOf lru.numSlot contents.key) := by
  funext other
  by_cases same : other = node
  · subst same
    simp [slotOfNode, write]
  · simp [slotOfNode, write, same]

theorem State.entry_write (lru : State) (node : Nat) (contents : Node) (links : Links Link) :
    (lru.write node contents links).entry = Function.update lru.entry node (contents.key, contents.ino) := by
  funext other
  by_cases same : other = node
  · subst same
    simp [entry, write]
  · simp [entry, write, same]

/-- The entries of nodes that are listed with a rewritten one at the end. -/
theorem State.map_entry_write (lru : State) {node : Nat} (contents : Node) (links : Links Link)
    {nodes : List Nat} (absent : node ∉ nodes) :
    (nodes ++ [node]).map (lru.write node contents links).entry =
      nodes.map lru.entry ++ [(contents.key, contents.ino)] := by
  rw [entry_write, List.map_append, List.map_singleton, Function.update_self]
  congr 1
  refine List.map_congr_left (fun other member => ?_)
  exact Function.update_of_ne (fun equal => absent (by rw [← equal]; exact member)) _ _

/-- The state after a sequence of insertions, with the nodes of `lru_nodes` in order. -/
structure Kept (numSlot nodeSize : Nat) (calls : List (List UInt8 × Nat)) (lru : State)
    (nodes : List Nat) : Prop where
  numSlot_eq : lru.numSlot = numSlot
  nodeSize_eq : lru.nodeSize = nodeSize
  linked : Linked lru.links numSlot nodes lru.slotOfNode
  count : lru.numNodes = nodes.length
  allocated : forall node, node ∈ nodes -> node < lru.numNodes
  recent : RecentKeys nodeSize calls (nodes.map lru.entry)

theorem kept_mallocLru (numSlot nodeSize : Nat) : Kept numSlot nodeSize [] (mallocLru numSlot nodeSize) [] where
  numSlot_eq := rfl
  nodeSize_eq := rfl
  linked :=
    { ring := ⟨List.nodup_singleton _, rfl, rfl⟩
      slots := fun _ _ => ⟨[], ⟨List.nodup_singleton _, rfl, rfl⟩, fun _ => by simp⟩ }
  count := rfl
  allocated := fun _ member => absurd member List.not_mem_nil
  recent := RecentKeys.nil nodeSize

section Step

variable {numSlot nodeSize : Nat} {calls : List (List UInt8 × Nat)} {lru : State} {nodes : List Nat}
  {key : List UInt8} {ino : Nat}

/-- The node a search returns. -/
def Found (lru : State) (nodes : List Nat) (key : List UInt8) : Option Nat -> Prop
  | some node => node ∈ nodes ∧ (lru.node node).key = key
  | none => forall node, node ∈ nodes -> (lru.node node).key ≠ key

/-- `find_lru_node` finds the node of a key, since it can only be in the slot searched. -/
theorem Kept.ensures_findLruNode (kept : Kept numSlot nodeSize calls lru nodes) (positive : 1 ≤ numSlot) :
    Ensures (findLruNode key) lru (fun found next => next = lru ∧ Found lru nodes key found)
      (fun _ _ => False) := by
  have bound : slotOf lru.numSlot key < numSlot := by
    rw [kept.numSlot_eq]
    exact Nat.mod_lt _ positive
  rcases kept.linked.slots _ bound with ⟨members, held⟩
  have short : (members.map Link.hashList).length < lru.numNodes + 1 := by
    have subset : members ⊆ nodes := fun node member => ((held.members node).mp member).1
    have length := (List.subperm_of_subset held.nodup subset).length_le
    rw [List.length_map, kept.count]
    omega
  have visits : forall link, link ∈ members.map Link.hashList -> compareKey lru key link =
      .ok (((hashEntry link).map (fun node => decide (key = (lru.node node).key))).getD false) := by
    intro link member
    rcases List.mem_map.mp member with ⟨node, _, rfl⟩
    rfl
  have walk := held.ring.find_eq Fault.outOfFuel visits short
  simp only [findLruNode, Ensures.bind_iff, Ensures.get_iff, walk, Ensures.pure_iff, List.find?_map]
  refine ⟨trivial, ?_⟩
  cases search : members.find? _ with
  | some node =>
      have member := (held.members node).mp (List.mem_of_find?_eq_some search)
      have same := List.find?_some search
      exact ⟨member.1, (of_decide_eq_true same).symm⟩
  | none =>
      intro node member equal
      have inSlot := (held.members node).mpr ⟨member, by rw [State.slotOfNode, equal]⟩
      have different := List.find?_eq_none.mp search node inSlot
      exact different (decide_eq_true equal.symm)

/-- A key that is held is moved to the tail with its new inode number. -/
theorem Kept.ensures_touch (kept : Kept numSlot nodeSize calls lru nodes) {node : Nat}
    (member : node ∈ nodes) :
    Ensures (touch node ino) lru
      (fun _ next => Exists fun order =>
        Kept numSlot nodeSize (calls ++ [((lru.node node).key, ino)]) next order)
      (fun _ _ => False) := by
  rcases List.append_of_mem member with ⟨front, back, split⟩
  subst split
  have absent := (List.nodup_cons.mp (List.nodup_middle.mp kept.linked.nodup)).1
  simp only [touch, Ensures.bind_iff, Ensures.modify_iff, Ensures.pure_iff]
  refine ⟨(front ++ back) ++ [node], ?_⟩
  change Kept _ _ _ (lru.write node { lru.node node with ino := ino } _) _
  constructor
  case numSlot_eq => exact kept.numSlot_eq
  case nodeSize_eq => exact kept.nodeSize_eq
  case linked =>
    have slots : Function.update lru.slotOfNode node (slotOf lru.numSlot (lru.node node).key) =
        lru.slotOfNode := Function.update_eq_self node lru.slotOfNode
    rw [State.slotOfNode_write, slots]
    exact kept.linked.rotate
  case count =>
    have count := kept.count
    simp only [List.length_append, List.length_cons, List.length_nil] at count ⊢
    exact count.trans (by omega)
  case allocated =>
    intro other inside
    refine kept.allocated other ?_
    simp only [List.mem_append, List.mem_cons, List.not_mem_nil, or_false] at inside ⊢
    tauto
  case recent =>
    have recent := kept.recent
    rw [List.map_append, List.map_cons] at recent
    rw [State.map_entry_write _ _ _ absent, List.map_append]
    exact recent.hit ino

/-- The node that `new_or_expire_lru_node` hands out is in no list, and the other nodes
keep their places; at the capacity it is the oldest one. -/
structure Free (numSlot nodeSize : Nat) (calls : List (List UInt8 × Nat)) (key : List UInt8)
    (lru : State) (nodes : List Nat) (node : Nat) : Prop where
  numSlot_eq : lru.numSlot = numSlot
  nodeSize_eq : lru.nodeSize = nodeSize
  linked : Linked lru.links numSlot nodes lru.slotOfNode
  absent : node ∉ nodes
  count : lru.numNodes = nodes.length + 1
  allocated : forall other, other ∈ nodes ++ [node] -> other < lru.numNodes
  recent : forall ino, RecentKeys nodeSize (calls ++ [(key, ino)]) (nodes.map lru.entry ++ [(key, ino)])

theorem Kept.ensures_newOrExpireLruNode (kept : Kept numSlot nodeSize calls lru nodes)
    (slots : 1 ≤ numSlot) (room : 1 ≤ nodeSize) (new : forall node, node ∈ nodes -> (lru.node node).key ≠ key) :
    Ensures newOrExpireLruNode lru
      (fun node next => Exists fun others => Free numSlot nodeSize calls key next others node)
      (fun _ _ => False) := by
  have absentKey : key ∉ (nodes.map lru.entry).map Prod.fst := by
    intro member
    rw [List.map_map] at member
    rcases List.mem_map.mp member with ⟨node, inside, equal⟩
    exact new node inside equal
  simp only [newOrExpireLruNode, Ensures.bind_iff, Ensures.get_iff, Ensures.ite_iff]
  split
  case isTrue full =>
    cases nodes with
    | nil =>
        have count := kept.count
        rw [kept.nodeSize_eq, count] at full
        exact absurd full (Nat.not_le.mpr room)
    | cons oldest rest =>
        have first : lru.links.next .lruNodes = .lruList oldest := kept.linked.ring.path.1
        have absent := (List.nodup_cons.mp kept.linked.nodup).1
        have inRange : lru.slotOfNode oldest < numSlot := by
          unfold State.slotOfNode slotOf
          rw [kept.numSlot_eq]
          exact Nat.mod_lt _ slots
        simp only [first, Ensures.bind_iff, Ensures.modify_iff, Ensures.pure_iff]
        refine ⟨rest, kept.numSlot_eq, kept.nodeSize_eq, ?_, absent, kept.count, ?_, ?_⟩
        · exact @Linked.drop _ _ _ [] rest _ kept.linked inRange
        · intro other member
          exact kept.allocated other (List.perm_append_singleton oldest rest |>.mem_iff.mp member)
        · intro ino
          refine kept.recent.replace absentKey ?_ ino
          rw [← List.map_cons, List.length_map, ← kept.count, ← kept.nodeSize_eq]
          exact full
  case isFalse space =>
    have absent : lru.numNodes ∉ nodes := fun member => Nat.lt_irrefl _ (kept.allocated _ member)
    simp only [Ensures.modify_iff, Ensures.pure_iff]
    refine ⟨nodes, kept.numSlot_eq, kept.nodeSize_eq, kept.linked.init absent, absent,
      congrArg (· + 1) kept.count, ?_, ?_⟩
    · intro other member
      rcases List.mem_append.mp member with inside | last
      · exact Nat.lt_succ_of_lt (kept.allocated other inside)
      · rw [List.mem_singleton.mp last]
        exact Nat.lt_succ_self _
    · intro ino
      refine kept.recent.add absentKey ?_ ino
      rw [List.length_map, ← kept.count, ← kept.nodeSize_eq]
      exact Nat.lt_of_not_le space

/-- A new key gets a node at the tail of `lru_nodes` and of its slot. -/
theorem Kept.ensures_enter (kept : Kept numSlot nodeSize calls lru nodes) (slots : 1 ≤ numSlot)
    (room : 1 ≤ nodeSize) (new : forall node, node ∈ nodes -> (lru.node node).key ≠ key) :
    Ensures (enter key ino) lru
      (fun _ next => Exists fun order => Kept numSlot nodeSize (calls ++ [(key, ino)]) next order)
      (fun _ _ => False) := by
  simp only [enter, Ensures.bind_iff, Ensures.modify_iff, Ensures.pure_iff]
  refine (kept.ensures_newOrExpireLruNode slots room new).mono ?_ (fun _ _ never => never)
  rintro node free ⟨others, held⟩
  have inRange : slotOf free.numSlot key < numSlot := by
    rw [held.numSlot_eq]
    exact Nat.mod_lt _ slots
  refine ⟨others ++ [node], ?_⟩
  change Kept _ _ _ (free.write node ⟨key, ino⟩ _) _
  constructor
  case numSlot_eq => exact held.numSlot_eq
  case nodeSize_eq => exact held.nodeSize_eq
  case linked =>
    rw [State.slotOfNode_write]
    exact held.linked.add held.absent inRange
  case count => exact held.count.trans (by simp)
  case allocated => exact held.allocated
  case recent =>
    rw [State.map_entry_write _ _ _ held.absent]
    exact held.recent ino

/-- One insertion. -/
theorem Kept.ensures_lruUpsert (kept : Kept numSlot nodeSize calls lru nodes) (slots : 1 ≤ numSlot)
    (room : 1 ≤ nodeSize) (call : List UInt8 × Nat) (named : call.1 ≠ []) (numbered : call.2 ≠ 0) :
    Ensures (lruUpsert call) lru
      (fun _ next => Exists fun order => Kept numSlot nodeSize (calls ++ [call]) next order)
      (fun _ _ => False) := by
  have valid : ¬ (call.1 = [] ∨ call.2 = 0) := fun either => either.elim named numbered
  simp only [lruUpsert, insertLruNode, Ensures.bind_iff, Ensures.pure_iff, if_neg valid]
  refine (kept.ensures_findLruNode slots).mono ?_ (fun _ _ never => never)
  rintro found next ⟨rfl, outcome⟩
  cases found with
  | some node =>
      have touched := @Kept.ensures_touch _ _ _ _ _ call.2 kept node outcome.1
      rw [outcome.2] at touched
      exact touched
  | none => exact kept.ensures_enter slots room outcome

end Step

/-! ## Whole runs -/

/-- The LRU after a sequence of insertions: the listed nodes hold the keys inserted last,
every slot holds the listed nodes of its keys and no others, and the nodes are counted. -/
structure Remembers (calls : List (List UInt8 × Nat)) (lru : State) (nodes : List Nat) : Prop where
  listed : lru.links.Ring .lruNodes (nodes.map .lruList)
  recent : RecentKeys lru.nodeSize calls (nodes.map lru.entry)
  slots : forall idx, idx < lru.numSlot -> Exists fun members : List Nat =>
    lru.links.Ring (.hashSlot idx) (members.map .hashList) ∧
      forall node, node ∈ members <-> node ∈ nodes ∧ slotOf lru.numSlot (lru.node node).key = idx
  counted : lru.numNodes = nodes.length

/-- Every run of insertions of names and inode numbers returns and leaves the most recent
names. -/
theorem lru_remembers_recent (numSlot nodeSize : Nat) (slots : 1 ≤ numSlot) (room : 1 ≤ nodeSize)
    (calls : List (List UInt8 × Nat)) (valid : forall call, call ∈ calls -> call.1 ≠ [] ∧ call.2 ≠ 0) :
    Ensures (runAll lruUpsert calls) (mallocLru numSlot nodeSize)
      (fun _ lru => lru.numSlot = numSlot ∧ lru.nodeSize = nodeSize ∧
        Exists fun nodes => Remembers calls lru nodes)
      (fun _ _ => False) := by
  have step : forall past call lru,
      (Exists fun nodes => Kept numSlot nodeSize past lru nodes) -> call.1 ≠ [] ∧ call.2 ≠ 0 ->
      Ensures (lruUpsert call) lru
        (fun _ next => Exists fun nodes => Kept numSlot nodeSize (past ++ [call]) next nodes)
        (fun _ _ => False) := by
    rintro past call lru ⟨nodes, kept⟩ ⟨named, numbered⟩
    exact kept.ensures_lruUpsert slots room call named numbered
  refine (Ensures.runAll step ⟨[], kept_mallocLru numSlot nodeSize⟩ valid).mono ?_ (fun _ _ never => never)
  rintro _ lru ⟨nodes, kept⟩
  refine ⟨kept.numSlot_eq, kept.nodeSize_eq, nodes, kept.linked.ring, ?_, ?_, kept.count⟩
  · rw [kept.nodeSize_eq]
    exact kept.recent
  · intro idx bound
    rw [kept.numSlot_eq] at bound
    rcases kept.linked.slots idx bound with ⟨members, held⟩
    exact ⟨members, held.ring, held.members⟩

/-- Two names in an LRU with one node: the second one replaces the first. -/
theorem lru_remembers_recent_two :
    Ensures (runAll lruUpsert [([97], 5), ([98], 6)]) (mallocLru 3 1)
      (fun _ lru => lru.numSlot = 3 ∧ lru.nodeSize = 1 ∧
        Exists fun nodes => Remembers [([97], 5), ([98], 6)] lru nodes)
      (fun _ _ => False) :=
  lru_remembers_recent 3 1 (by decide) (by decide) [([97], 5), ([98], 6)] (by decide)

end InodeLru

end Userfs.Filesystem
