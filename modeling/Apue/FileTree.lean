/-
Apue/FileTree.lean

Directory trees and pathnames.

A node of a tree is a leaf of an arbitrary kind, or a directory with its entries.  A
location is the list of names that leads from the root to a node.  A pathname is a text:
its components are what stands between slashes.  `resolve` follows the components from the
root or from the current directory, as the kernel does:

* an empty component and "." stay, ".." goes up, and the root is its own parent;
* every component but the last must lead to a directory, links followed;
* a link at the end is followed if `follow` says so.

What a link leads to is part of its kind: a location, or nothing.

The names in a directory are distinct, and are names that a file can have (`WF`).
-/
import Mathlib.Data.List.Basic
import Mathlib.Tactic.Common

namespace FileTree

/-- The name of a directory entry. -/
abbrev Name := List UInt8

/-- The names from the root to a node. -/
abbrev Loc := List Name

/-- A file of kind `κ`, or a directory. -/
inductive Node (κ : Type*)
  | leaf (k : κ)
  | dir (entries : List (Name × Node κ))

def dot : Name := [46]

def dotdot : Name := [46, 46]

/-- A name that a directory entry can have, apart from "." and "..". -/
def ValidName (n : Name) : Prop := n ≠ [] ∧ 47 ∉ n ∧ n ≠ dot ∧ n ≠ dotdot

instance (n : Name) : Decidable (ValidName n) := inferInstanceAs (Decidable (_ ∧ _))

variable {κ : Type*}

namespace Node

/-! ### Trees -/

mutual

/-- How deep directories are nested. -/
def depth : Node κ → ℕ
  | .leaf _ => 0
  | .dir es => depthEntries es + 1

def depthEntries : List (Name × Node κ) → ℕ
  | [] => 0
  | (_, n) :: es => max n.depth (depthEntries es)

end

theorem depth_le_depthEntries {e : Name × Node κ} {es : List (Name × Node κ)} (h : e ∈ es) :
    e.2.depth ≤ depthEntries es := by
  induction es with
  | nil => cases h
  | cons e' es ih =>
      rcases List.mem_cons.mp h with rfl | h
      · exact Nat.le_max_left _ _
      · exact Nat.le_trans (ih h) (Nat.le_max_right _ _)

theorem depth_lt {e : Name × Node κ} {es : List (Name × Node κ)} (h : e ∈ es) :
    e.2.depth < (dir es).depth := by
  rw [depth]
  exact Nat.lt_succ_of_le (depth_le_depthEntries h)

mutual

/-- The names in each directory are valid and distinct. -/
def WF : Node κ → Prop
  | .leaf _ => True
  | .dir es => (es.map Prod.fst).Nodup ∧ (∀ n ∈ es.map Prod.fst, ValidName n) ∧ WFEntries es

def WFEntries : List (Name × Node κ) → Prop
  | [] => True
  | (_, n) :: es => n.WF ∧ WFEntries es

end

theorem WFEntries.of_mem {e : Name × Node κ} {es : List (Name × Node κ)} (h : WFEntries es)
    (he : e ∈ es) : e.2.WF := by
  induction es with
  | nil => cases he
  | cons e' es ih =>
      rw [WFEntries] at h
      rcases List.mem_cons.mp he with rfl | he
      · exact h.1
      · exact ih h.2 he

/-- The entry of a directory with this name. -/
def child : Node κ → Name → Option (Node κ)
  | .leaf _, _ => none
  | .dir es, n => es.lookup n

theorem mem_of_child {n : Name} {m : Node κ} {es : List (Name × Node κ)}
    (h : (dir es).child n = some m) : (n, m) ∈ es := by
  rw [child] at h
  induction es with
  | nil => cases h
  | cons e es ih =>
      obtain ⟨n', m'⟩ := e
      rw [List.lookup_cons] at h
      by_cases hn : n = n'
      · subst hn
        simp only [beq_self_eq_true] at h
        obtain rfl := Option.some.inj h
        exact List.mem_cons_self
      · simp only [beq_eq_false_iff_ne.mpr hn] at h
        exact List.mem_cons_of_mem _ (ih h)

theorem child_eq_some_iff {n : Name} {m : Node κ} {es : List (Name × Node κ)}
    (hnd : (es.map Prod.fst).Nodup) : (dir es).child n = some m ↔ (n, m) ∈ es := by
  refine ⟨mem_of_child, fun h => ?_⟩
  rw [child]
  induction es with
  | nil => cases h
  | cons e es ih =>
      rw [List.map_cons, List.nodup_cons] at hnd
      obtain ⟨n', m'⟩ := e
      rw [List.lookup_cons]
      rcases List.mem_cons.mp h with he | hmem
      · obtain ⟨rfl, rfl⟩ := Prod.mk.inj he
        simp
      · have hne : n ≠ n' := by
          rintro rfl
          exact hnd.1 (List.mem_map.mpr ⟨(n, m), hmem, rfl⟩)
        simp only [beq_eq_false_iff_ne.mpr hne]
        exact ih hnd.2 hmem

/-- The node at a location. -/
def get : Node κ → Loc → Option (Node κ)
  | node, [] => some node
  | node, n :: l => (node.child n).bind fun m => m.get l

theorem get_append (node : Node κ) (l l' : Loc) :
    node.get (l ++ l') = (node.get l).bind fun m => m.get l' := by
  induction l generalizing node with
  | nil => rfl
  | cons n l ih =>
      rw [List.cons_append, get, get, Option.bind_assoc]
      exact congrArg _ (funext fun m => ih m)

theorem get_concat (node : Node κ) (l : Loc) (n : Name) :
    node.get (l ++ [n]) = (node.get l).bind fun m => m.child n := by
  rw [get_append]
  refine congrArg _ (funext fun m => ?_)
  rw [get]
  cases m.child n <;> rfl

theorem WF.child {node m : Node κ} {n : Name} (h : node.WF) (hm : node.child n = some m) :
    m.WF := by
  rcases node with k | es
  · cases hm
  · rw [WF] at h
    exact h.2.2.of_mem (mem_of_child hm)

theorem WF.get {node m : Node κ} {l : Loc} (h : node.WF) (hm : node.get l = some m) : m.WF := by
  induction l generalizing node with
  | nil =>
      obtain rfl := Option.some.inj hm
      exact h
  | cons n l ih =>
      rw [Node.get] at hm
      obtain ⟨c, hc, hm⟩ := Option.bind_eq_some_iff.mp hm
      exact ih (h.child hc) hm

theorem depth_child {node m : Node κ} {n : Name} (hm : node.child n = some m) :
    m.depth < node.depth := by
  rcases node with k | es
  · cases hm
  · exact depth_lt (e := (n, m)) (mem_of_child hm)

theorem depth_get {node m : Node κ} {l : Loc} (hm : node.get l = some m) :
    m.depth ≤ node.depth := by
  induction l generalizing node with
  | nil =>
      obtain rfl := Option.some.inj hm
      exact Nat.le_refl _
  | cons n l ih =>
      rw [get] at hm
      obtain ⟨c, hc, hm⟩ := Option.bind_eq_some_iff.mp hm
      exact Nat.le_trans (ih hm) (Nat.le_of_lt (depth_child hc))

end Node

/-- A well-formed tree whose root is a directory. -/
structure Tree (κ : Type*) where
  entries : List (Name × Node κ)
  wf : (Node.dir entries).WF

/-- The node at a location of a tree. -/
def Tree.get (t : Tree κ) (l : Loc) : Option (Node κ) := (Node.dir t.entries).get l

def Tree.depth (t : Tree κ) : ℕ := (Node.dir t.entries).depth

def Tree.isDir (t : Tree κ) (l : Loc) : Bool :=
  match t.get l with
  | some (.dir _) => true
  | _ => false

theorem Tree.isDir_iff {t : Tree κ} {l : Loc} :
    t.isDir l = true ↔ ∃ es, t.get l = some (.dir es) := by
  unfold Tree.isDir
  split
  · next es h => simp [h]
  · next h =>
    refine ⟨(fun hf => by cases hf), ?_⟩
    rintro ⟨es, hes⟩
    exact absurd hes (h es)

/-- What the directory at a location holds. -/
theorem Tree.get_concat {t : Tree κ} {l : Loc} {es : List (Name × Node κ)}
    (h : t.get l = some (.dir es)) (n : Name) : t.get (l ++ [n]) = (Node.dir es).child n := by
  have hg : (Node.dir t.entries).get l = some (.dir es) := h
  rw [Tree.get, Node.get_concat, hg, Option.bind_some]

theorem Tree.wf_dir {t : Tree κ} {l : Loc} {es : List (Name × Node κ)}
    (h : t.get l = some (.dir es)) :
    (es.map Prod.fst).Nodup ∧ ∀ n ∈ es.map Prod.fst, ValidName n := by
  have hwf := t.wf.get h
  rw [Node.WF] at hwf
  exact ⟨hwf.1, hwf.2.1⟩

theorem Tree.depth_get {t : Tree κ} {l : Loc} {m : Node κ} (h : t.get l = some m) :
    m.depth ≤ t.depth := Node.depth_get h

/-! ### Pathnames -/

/-- What stands between the slashes of a text. -/
def split : List UInt8 → List (List UInt8)
  | [] => [[]]
  | c :: cs =>
      if c = 47 then [] :: split cs
      else
        match split cs with
        | [] => [[c]]
        | w :: ws => (c :: w) :: ws

theorem split_ne_nil (p : List UInt8) : split p ≠ [] := by
  rcases p with _ | ⟨c, cs⟩
  · simp [split]
  · rw [split]
    split
    · simp
    · split <;> simp

theorem split_append_slash (p q : List UInt8) : split (p ++ 47 :: q) = split p ++ split q := by
  induction p with
  | nil => rfl
  | cons c p ih =>
      rw [List.cons_append, split, split, ih]
      by_cases hc : c = 47
      · simp [hc]
      · obtain ⟨w, ws, hw⟩ := List.exists_cons_of_ne_nil (split_ne_nil p)
        simp [hc, hw]

theorem split_of_notMem {n : List UInt8} (h : 47 ∉ n) : split n = [n] := by
  induction n with
  | nil => rfl
  | cons c n ih =>
      have hc : c ≠ 47 := fun he => h (he ▸ List.mem_cons_self)
      rw [split, if_neg hc, ih fun hm => h (List.mem_cons_of_mem _ hm)]

/-- A component of a pathname. -/
inductive Comp
  | here
  | up
  | name (n : Name)
  deriving DecidableEq

def Comp.parse (c : List UInt8) : Comp :=
  if c = [] ∨ c = dot then .here else if c = dotdot then .up else .name c

theorem Comp.parse_of_valid {n : Name} (h : ValidName n) : Comp.parse n = .name n := by
  obtain ⟨h₁, -, h₂, h₃⟩ := h
  simp [Comp.parse, h₁, h₂, h₃]

section Resolve

variable (t : Tree κ) (link : κ → Option (Option Loc)) (follow : Bool)

/-- One component, from the directory at `l`. -/
def enter (l : Loc) : Comp → Option Loc
  | .here => some l
  | .up => some l.dropLast
  | .name n => if (t.get (l ++ [n])).isSome then some (l ++ [n]) else none

/-- A link at `l` is followed. -/
def deref (l : Loc) : Option Loc :=
  match t.get l with
  | some (.leaf k) => (link k).getD (some l)
  | _ => some l

/-- A component that must lead to a directory. -/
def descend (l : Loc) (c : Comp) : Option Loc :=
  ((enter t l c).bind (deref t link)).filter t.isDir

/-- The location that a pathname leads to. -/
def resolve (cwd : Loc) (path : List UInt8) : Option Loc :=
  if path = [] then none
  else
    let start := if path.head? = some 47 then [] else cwd
    let comps := (split path).map Comp.parse
    (comps.dropLast.foldlM (descend t link) start).bind fun d =>
      (enter t d (comps.getLastD .here)).bind fun l => if follow then deref t link l else some l

variable {t link follow} {l l' cwd : Loc} {n : Name} {p : List UInt8}

theorem deref_of_isDir (h : t.isDir l = true) : deref t link l = some l := by
  obtain ⟨es, hes⟩ := Tree.isDir_iff.mp h
  simp [deref, hes]

/-- What is at the end of a path: an entry of a directory, which may be a link. -/
theorem resolve_eq_some_iff : resolve t link follow cwd p = some l ↔
    p ≠ [] ∧ ∃ d l₀,
      ((split p).map Comp.parse).dropLast.foldlM (descend t link)
        (if p.head? = some 47 then [] else cwd) = some d ∧
      enter t d (((split p).map Comp.parse).getLastD .here) = some l₀ ∧
      (if follow then deref t link l₀ else some l₀) = some l := by
  unfold resolve
  by_cases hp : p = []
  · simp [hp]
  · simp only [if_neg hp, Option.bind_eq_some_iff]
    constructor
    · rintro ⟨d, hd, l₀, hl₀, hl⟩
      exact ⟨hp, d, l₀, hd, hl₀, hl⟩
    · rintro ⟨-, d, l₀, hd, hl₀, hl⟩
      exact ⟨d, hd, l₀, hl₀, hl⟩

/-- At a directory it makes no difference whether links are followed. -/
theorem resolve_of_isDir (h : resolve t link false cwd p = some l) (hdir : t.isDir l = true) :
    resolve t link true cwd p = some l := by
  obtain ⟨hp, d, l₀, hd, hl₀, hl⟩ := resolve_eq_some_iff.mp h
  obtain rfl : l₀ = l := by simpa using hl
  exact resolve_eq_some_iff.mpr ⟨hp, d, l₀, hd, hl₀, by simpa using deref_of_isDir hdir⟩

/-- Where links are followed, the path leads to the same place or to a link that leads
there. -/
theorem resolve_unfollowed (h : resolve t link true cwd p = some l) :
    ∃ l₀, resolve t link false cwd p = some l₀ ∧ deref t link l₀ = some l := by
  obtain ⟨hp, d, l₀, hd, hl₀, hl⟩ := resolve_eq_some_iff.mp h
  exact ⟨l₀, resolve_eq_some_iff.mpr ⟨hp, d, l₀, hd, hl₀, rfl⟩, by simpa using hl⟩

/-- A path that ends at a directory, all of whose components are followed. -/
theorem foldlM_descend {cs : List Comp} {d : Loc} (hne : cs ≠ [])
    (hd : cs.dropLast.foldlM (descend t link) cwd = some d)
    (hl : enter t d (cs.getLastD .here) = some l) (hdir : t.isDir l = true) :
    cs.foldlM (descend t link) cwd = some l := by
  rw [List.getLastD_eq_getLast?, List.getLast?_eq_some_getLast hne, Option.getD_some] at hl
  have hstep : descend t link d (cs.getLast hne) = some l := by
    rw [descend, hl, Option.bind_some, deref_of_isDir hdir]
    simp [Option.filter, hdir]
  rw [← List.dropLast_append_getLast hne, List.foldlM_append, hd]
  simp [hstep]

/-- A name appended to the path of a directory. -/
theorem resolve_child (h : resolve t link false cwd p = some l) (hdir : t.isDir l = true)
    (hn : ValidName n) : resolve t link false cwd (p ++ 47 :: n) = enter t l (.name n) := by
  obtain ⟨hp, d, l₀, hd, hl₀, hl⟩ := resolve_eq_some_iff.mp h
  obtain rfl : l₀ = l := by simpa using hl
  have hhead : (p ++ 47 :: n).head? = p.head? := by
    obtain ⟨c, cs, rfl⟩ := List.exists_cons_of_ne_nil hp
    rfl
  have hwalk := foldlM_descend (by simpa using split_ne_nil p) hd hl₀ hdir
  unfold resolve
  simp only [split_append_slash, split_of_notMem hn.2.1, List.map_append, List.map_singleton,
    Comp.parse_of_valid hn, List.dropLast_concat, hhead, hwalk]
  simp

/-- A bare name. -/
theorem resolve_name (hn : ValidName n) :
    resolve t link follow cwd n =
      (enter t cwd (.name n)).bind fun l => if follow then deref t link l else some l := by
  have hhead : n.head? ≠ some 47 := fun he => hn.2.1 (List.mem_of_mem_head? he)
  unfold resolve
  rw [if_neg hn.1, if_neg hhead, split_of_notMem hn.2.1, List.map_singleton,
    Comp.parse_of_valid hn]
  rfl

/-- An absolute pathname does not depend on the current directory. -/
theorem resolve_absolute (h : p.head? = some 47) (cwd' : Loc) :
    resolve t link follow cwd p = resolve t link follow cwd' p := by
  simp [resolve, h]

theorem resolve_dot (hdir : t.isDir cwd = true) : resolve t link follow cwd dot = some cwd := by
  refine resolve_eq_some_iff.mpr ⟨by decide, cwd, cwd, rfl, rfl, ?_⟩
  rw [deref_of_isDir hdir]
  split <;> rfl

theorem resolve_dotdot (hdir : t.isDir l = true) :
    resolve t link follow (l ++ [n]) dotdot = some l := by
  refine resolve_eq_some_iff.mpr
    ⟨by decide, l ++ [n], l, rfl, congrArg some List.dropLast_concat, ?_⟩
  rw [deref_of_isDir hdir]
  split <;> rfl

end Resolve

end FileTree
