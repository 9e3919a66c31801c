/-
Apue/FileTreeWalk.lean

Walks through directory trees.

A walk goes from a node to the entries below it.  It may leave out nodes (`visits`, which
is asked with `true` for directories) and directories that it cannot look into (`opens`);
what is below such a node it does not see.  `walk` lists the nodes that are visited, each
with the names that lead to it from where the walk began.

The list has every node at most once (`nodup_walk`), and has it exactly if the walk gets
there (`mem_walk`): the node is visited, and every directory on the way to it is visited
and opened (`Seen`).  So the number of nodes listed is the number of nodes in a set
(`countP_walk`).
-/
import Mathlib.Data.List.Nodup
import Mathlib.Data.Set.Card
import Apue.FileTree

namespace FileTree

variable {κ : Type*}

namespace Node

def isDir : Node κ → Bool
  | .leaf _ => false
  | .dir _ => true

/-- Induction over a tree: a directory after its entries. -/
theorem induction {P : Node κ → Prop} (leaf : ∀ k, P (.leaf k))
    (dir : ∀ es, (∀ e ∈ es, P e.2) → P (.dir es)) (node : Node κ) : P node := by
  induction hd : node.depth using Nat.strongRecOn generalizing node with
  | ind d ih =>
      rcases node with k | es
      · exact leaf k
      · refine dir es fun e he => ih e.2.depth ?_ e.2 rfl
        rw [← hd]
        exact depth_lt he

end Node

variable (visits : Bool → Loc → Bool) (opens : Loc → Bool)

mutual

/-- The nodes that a walk from the node at `l` visits. -/
def walk : Loc → Node κ → List (Loc × Node κ)
  | l, .leaf k => if visits false l then [([], .leaf k)] else []
  | l, .dir es =>
      if visits true l then ([], .dir es) :: if opens l then walkEntries l es else [] else []

def walkEntries : Loc → List (Name × Node κ) → List (Loc × Node κ)
  | _, [] => []
  | l, (n, m) :: es => (walk (l ++ [n]) m).map (Prod.map (n :: ·) id) ++ walkEntries l es

end

/-- The walk from `l` gets to the node `m`, to which the names `rel` lead. -/
def Seen (l rel : Loc) (m : Node κ) : Prop :=
  visits m.isDir (l ++ rel) = true ∧
    ∀ q, q <+: rel → q ≠ rel → visits true (l ++ q) = true ∧ opens (l ++ q) = true

variable {visits opens} {l rel : Loc} {n : Name} {node m : Node κ} {es : List (Name × Node κ)}

theorem walkEntries_eq_flatMap (es : List (Name × Node κ)) :
    walkEntries visits opens l es
      = es.flatMap fun e => (walk visits opens (l ++ [e.1]) e.2).map (Prod.map (e.1 :: ·) id) := by
  induction es with
  | nil => rfl
  | cons e es ih => rw [walkEntries, List.flatMap_cons, ih]

theorem seen_nil : Seen visits opens l [] m ↔ visits m.isDir l = true := by
  rw [Seen, List.append_nil]
  refine ⟨fun h => h.1, fun h => ⟨h, fun q hq hne => ?_⟩⟩
  exact absurd (List.prefix_nil.mp hq) hne

/-- On the way to a node below an entry. -/
theorem seen_cons : Seen visits opens l (n :: rel) m ↔
    visits true l = true ∧ opens l = true ∧ Seen visits opens (l ++ [n]) rel m := by
  constructor
  · rintro ⟨hm, hway⟩
    obtain ⟨hl, hopen⟩ := hway [] List.nil_prefix (List.cons_ne_nil n rel).symm
    rw [List.append_nil] at hl hopen
    refine ⟨hl, hopen, by rwa [List.append_assoc], fun q hq hne => ?_⟩
    rw [List.append_assoc]
    exact hway (n :: q) ((List.prefix_cons_inj n).mpr hq) fun he => hne (List.cons.inj he).2
  · rintro ⟨hl, hopen, hm, hway⟩
    refine ⟨by rwa [List.append_assoc] at hm, fun q hq hne => ?_⟩
    rcases q with _ | ⟨n', q⟩
    · rw [List.append_nil]
      exact ⟨hl, hopen⟩
    · obtain ⟨rfl, hq'⟩ := List.cons_prefix_cons.mp hq
      have := hway q hq' fun he => hne (congrArg _ he)
      rwa [List.append_assoc] at this

theorem mem_walkEntries_cons : (n :: rel, m) ∈ walkEntries visits opens l es ↔
    ∃ c, (n, c) ∈ es ∧ (rel, m) ∈ walk visits opens (l ++ [n]) c := by
  rw [walkEntries_eq_flatMap, List.mem_flatMap]
  constructor
  · rintro ⟨⟨n', c⟩, he, hmem⟩
    obtain ⟨⟨rel', m'⟩, hx, heq⟩ := List.mem_map.mp hmem
    obtain ⟨⟨rfl, rfl⟩, rfl⟩ : (n' = n ∧ rel' = rel) ∧ m' = m := by simpa using heq
    exact ⟨c, he, hx⟩
  · rintro ⟨c, he, hx⟩
    exact ⟨(n, c), he, List.mem_map.mpr ⟨(rel, m), hx, rfl⟩⟩

theorem nil_notMem_walkEntries : ([], m) ∉ walkEntries visits opens l es := by
  rw [walkEntries_eq_flatMap, List.mem_flatMap]
  rintro ⟨e, -, hmem⟩
  obtain ⟨x, -, heq⟩ := List.mem_map.mp hmem
  cases congrArg Prod.fst heq

theorem mem_walk_leaf {k : κ} {x : Loc × Node κ} :
    x ∈ walk visits opens l (.leaf k) ↔ visits false l = true ∧ x = ([], .leaf k) := by
  rw [walk]
  by_cases h : visits false l = true <;> simp [h]

theorem mem_walk_dir {x : Loc × Node κ} :
    x ∈ walk visits opens l (.dir es) ↔ visits true l = true ∧
      (x = ([], .dir es) ∨ opens l = true ∧ x ∈ walkEntries visits opens l es) := by
  rw [walk]
  by_cases h : visits true l = true <;> by_cases h' : opens l = true <;> simp [h, h']

/-- **What a walk visits.** -/
theorem mem_walk (hwf : node.WF) :
    (rel, m) ∈ walk visits opens l node ↔ node.get rel = some m ∧ Seen visits opens l rel m := by
  induction rel generalizing l node with
  | nil =>
      rw [seen_nil, Node.get, Option.some.injEq]
      rcases node with k | es
      · rw [mem_walk_leaf]
        constructor
        · rintro ⟨h, he⟩
          obtain rfl : m = .leaf k := (Prod.mk.inj he).2
          exact ⟨rfl, h⟩
        · rintro ⟨rfl, h⟩
          exact ⟨h, rfl⟩
      · rw [mem_walk_dir]
        constructor
        · rintro ⟨h, he | he⟩
          · obtain rfl : m = .dir es := (Prod.mk.inj he).2
            exact ⟨rfl, h⟩
          · exact absurd he.2 nil_notMem_walkEntries
        · rintro ⟨rfl, h⟩
          exact ⟨h, .inl rfl⟩
  | cons n rel ih =>
      rw [seen_cons, Node.get]
      rcases node with k | es
      · rw [mem_walk_leaf]
        constructor
        · rintro ⟨-, he⟩
          cases (Prod.mk.inj he).1
        · rintro ⟨he, -⟩
          cases he
      · have hwf' := hwf
        rw [Node.WF] at hwf'
        rw [mem_walk_dir, mem_walkEntries_cons]
        constructor
        · rintro ⟨hv, he | ⟨ho, c, hc, hx⟩⟩
          · cases (Prod.mk.inj he).1
          · obtain ⟨hget, hseen⟩ := (ih (hwf'.2.2.of_mem hc)).mp hx
            refine ⟨?_, hv, ho, hseen⟩
            rw [(Node.child_eq_some_iff hwf'.1).mpr hc]
            exact hget
        · rintro ⟨hget, hv, ho, hseen⟩
          obtain ⟨c, hchild, hget⟩ := Option.bind_eq_some_iff.mp hget
          have hc := Node.mem_of_child hchild
          exact ⟨hv, .inr ⟨ho, c, hc, (ih (hwf'.2.2.of_mem hc)).mpr ⟨hget, hseen⟩⟩⟩

/-- A walk visits no node twice. -/
theorem nodup_walk (hwf : node.WF) : ((walk visits opens l node).map Prod.fst).Nodup := by
  induction node using Node.induction generalizing l with
  | leaf k =>
      rw [walk]
      split <;> simp
  | dir es ih =>
      rw [Node.WF] at hwf
      obtain ⟨hnd, -, hes⟩ := hwf
      have hentries : ((walkEntries visits opens l es).map Prod.fst).Nodup := by
        rw [walkEntries_eq_flatMap, List.map_flatMap, List.nodup_flatMap]
        constructor
        · intro e he
          have hone := ih e he (l := l ++ [e.1]) (hes.of_mem he)
          have hcons := hone.map (List.cons_injective (a := e.1))
          rw [List.map_map] at hcons ⊢
          exact hcons
        · -- entries have different names, and so have the nodes below them
          refine (List.pairwise_map.mp hnd).imp fun {e e'} hne x hx hx' => ?_
          simp only [List.map_map, List.mem_map, Function.comp_apply, Prod.map_fst] at hx hx'
          obtain ⟨y, -, rfl⟩ := hx
          obtain ⟨y', -, heq⟩ := hx'
          exact hne (List.cons.inj heq).1.symm
      rw [walk]
      split
      · rw [List.map_cons, List.nodup_cons]
        refine ⟨fun hmem => ?_, ?_⟩
        · obtain ⟨⟨rel, m⟩, hx, rfl⟩ := List.mem_map.mp hmem
          split at hx
          · exact nil_notMem_walkEntries hx
          · cases hx
        · split
          · exact hentries
          · exact List.nodup_nil
      · exact List.nodup_nil

/-- The nodes with a property that a walk gets to, by the names that lead there. -/
def seenNodes (visits : Bool → Loc → Bool) (opens : Loc → Bool) (p : Node κ → Bool) (l : Loc)
    (node : Node κ) : Set Loc :=
  {rel | ∃ m, node.get rel = some m ∧ p m = true ∧ Seen visits opens l rel m}

/-- **Counting the nodes a walk visits**: those with a property are counted once each. -/
theorem countP_walk (visits : Bool → Loc → Bool) (opens : Loc → Bool) (l : Loc) (hwf : node.WF)
    (p : Node κ → Bool) :
    (seenNodes visits opens p l node).Finite ∧
      (walk visits opens l node).countP (fun x => p x.2)
        = (seenNodes visits opens p l node).ncard := by
  set L := (walk visits opens l node).filter fun x => p x.2
  have hset : seenNodes visits opens p l node = {rel | rel ∈ L.map Prod.fst} := by
    ext rel
    simp only [seenNodes, Set.mem_ofPred_eq, List.mem_map, Prod.exists, exists_and_right,
      exists_eq_right]
    refine exists_congr fun m => ?_
    rw [List.mem_filter, mem_walk hwf]
    constructor
    · rintro ⟨hget, hp, hseen⟩
      exact ⟨⟨hget, hseen⟩, hp⟩
    · rintro ⟨⟨hget, hseen⟩, hp⟩
      exact ⟨hget, hp, hseen⟩
  have hnd : (L.map Prod.fst).Nodup :=
    (nodup_walk hwf).sublist (List.filter_sublist.map Prod.fst)
  classical
  have hcard : {rel | rel ∈ L.map Prod.fst}.ncard = (L.map Prod.fst).length := by
    rw [← List.toFinset_card_of_nodup hnd, ← Set.ncard_coe_finset, List.coe_toFinset]
  refine ⟨by rw [hset]; exact List.finite_toSet _, ?_⟩
  rw [hset, hcard, List.length_map, List.countP_eq_length_filter]

end FileTree
