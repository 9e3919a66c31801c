/-
Apue/TreeWalk.lean

Two programs that count the files of a directory tree by their types: `4/7_myftw.cpp`,
which names every file by a path from where it was started, and `4/12_myftw_chdir.cpp`,
which changes into every directory and uses bare names.

What is counted does not depend on the program (`tally`): a node is counted if it is
visited, and its entries are looked at if it is a directory that could be opened.  Both
functions `myftw` are shown to count this, whatever system calls fail.

They differ in `main`.  The program of `4/12` changes into the directory first and then
calls `lstat` and `opendir` with the same pathname, which is now taken from inside the
directory.  For a relative pathname this is another file, or none.  So the two programs
agree only where the pathname leads, from inside the directory, to a directory with at
least the same names (`same_counters_iff`).

Left out: `argv`, the messages of `err_ret`, `closedir`, `printStat`, and the loop of `4/7`
that enlarges `pathname`, whose condition is never true.
-/
import Mathlib.Algebra.BigOperators.Pi
import Mathlib.Algebra.GroupWithZero.Nat
import Mathlib.Algebra.Order.BigOperators.Group.Finset
import Apue.FileTree

namespace Apue.TreeWalk

open FileTree

/-! ### Files and counters -/

/-- The types that `st_mode & S_IFMT` tells apart. -/
inductive FileType
  | reg | dir | blk | chr | fifo | slink | sock
  deriving DecidableEq, Repr

/-- What is not a directory.  A symbolic link leads somewhere or nowhere. -/
inductive Kind
  | reg | blk | chr | fifo | sock
  | slink (target : Option Loc)

def Kind.type : Kind → FileType
  | .reg => .reg
  | .blk => .blk
  | .chr => .chr
  | .fifo => .fifo
  | .sock => .sock
  | .slink _ => .slink

def Kind.link : Kind → Option (Option Loc)
  | .slink target => some target
  | _ => none

/-- `st_mode` of a file. -/
def mode : Node Kind → FileType
  | .leaf k => k.type
  | .dir _ => .dir

theorem Kind.type_ne_dir (k : Kind) : k.type ≠ .dir := by cases k <;> simp [Kind.type]

/-- The counters of `struct nfiles`. -/
abbrev NFiles := FileType → ℕ

/-- `nf.n..++` -/
def NFiles.inc (nf : NFiles) (ty : FileType) : NFiles := Function.update nf ty (nf ty + 1)

/-- One file. -/
def one (ty : FileType) : NFiles := fun ty' => if ty' = ty then 1 else 0

theorem NFiles.inc_eq (nf : NFiles) (ty : FileType) : nf.inc ty = nf + one ty := by
  funext ty'
  by_cases h : ty' = ty
  · subst h
    simp [NFiles.inc, one]
  · simp [NFiles.inc, one, h]

/-! ### System calls -/

/-- Which calls fail on a file that exists: `lstat` and `opendir` of the file at a location,
`chdir` to it by a pathname. -/
structure Faults where
  lstat : Loc → Bool
  opendir : Loc → Bool
  chdir : List UInt8 → Loc → Bool

/-- No call fails. -/
def Faults.none : Faults := ⟨fun _ => false, fun _ => false, fun _ _ => false⟩

variable (t : FileTree.Tree Kind) (f : Faults)

def lstat (cwd : Loc) (path : List UInt8) : Option FileType :=
  (resolve t Kind.link false cwd path).bind fun l =>
    if f.lstat l then none else (t.get l).map mode

/-- `opendir`, and the names that `readdir` will return. -/
def opendir (cwd : Loc) (path : List UInt8) : Option (List Name) :=
  (resolve t Kind.link true cwd path).bind fun l =>
    if f.opendir l then none
    else
      match t.get l with
      | some (.dir es) => some (dot :: dotdot :: es.map Prod.fst)
      | _ => none

/-- `chdir`: the new current directory. -/
def chdir (cwd : Loc) (path : List UInt8) : Option Loc :=
  (resolve t Kind.link true cwd path).bind fun l =>
    if f.chdir path l then none else if t.isDir l then some l else none

/-! ### The path-based program -/

/-- `pathname.resize(n)`. -/
def resize (s : List UInt8) (n : ℕ) : List UInt8 := s.take n ++ List.replicate (n - s.length) 0

/-- The loop body of `myftw`, for the next name; `rec` is `myftw` itself. -/
def Path.visit (rec : List UInt8 → NFiles → Option (List UInt8 × NFiles)) :
    List UInt8 × NFiles → Name → Option (List UInt8 × NFiles)
  | (pathname, nf), name =>
      if name = dot ∨ name = dotdot then some (pathname, nf)
      else
        (rec (pathname ++ 47 :: name) nf).map fun r => (resize r.1 pathname.length, r.2)

/-- `myftw` of `4/7`: the string and the counters on return. -/
def Path.myftw (cwd : Loc) : ℕ → List UInt8 → NFiles → Option (List UInt8 × NFiles)
  | 0, _, _ => none
  | fuel + 1, pathname, nf =>
      match lstat t f cwd pathname with
      | none => some (pathname, nf)
      | some .dir =>
          match opendir t f cwd pathname with
          | none => some (pathname, nf.inc .dir)
          | some names => names.foldlM (Path.visit (Path.myftw cwd fuel)) (pathname, nf.inc .dir)
      | some ty => some (pathname, nf.inc ty)

/-- `main` of `4/7`. -/
def Path.main (cwd : Loc) (arg : List UInt8) : Option NFiles :=
  (Path.myftw t f cwd (t.depth + 1) arg 0).map Prod.snd

/-! ### The chdir-based program -/

/-- The loop body of `myftw`, for the next name; `rec` is `myftw` itself. -/
def Chdir.visit (rec : Loc → List UInt8 → Option FileType → NFiles → Option (Loc × NFiles)) :
    Loc × NFiles → Name → Option (Loc × NFiles)
  | (cwd, nf), name =>
      if name = dot ∨ name = dotdot then some (cwd, nf)
      else
        match lstat t f cwd name with
        | none => some (cwd, nf)
        | some .dir =>
            match chdir t f cwd name with
            | none => some (cwd, nf)
            | some cwd' =>
                (rec cwd' dot (some .dir) nf).map fun r => ((chdir t f r.1 dotdot).getD r.1, r.2)
        | some ty => rec cwd name (some ty) nf

/-- `myftw` of `4/12`: the current directory and the counters on return. -/
def Chdir.myftw : ℕ → Loc → List UInt8 → Option FileType → NFiles → Option (Loc × NFiles)
  | 0, _, _, _, _ => none
  | fuel + 1, cwd, pathname, st, nf =>
      match st <|> lstat t f cwd pathname with
      | none => some (cwd, nf)
      | some .dir =>
          match opendir t f cwd pathname with
          | none => some (cwd, nf.inc .dir)
          | some names => names.foldlM (Chdir.visit t f (Chdir.myftw fuel)) (cwd, nf.inc .dir)
      | some ty => some (cwd, nf.inc ty)

/-- `main` of `4/12`; the error is that of `err_sys`. -/
def Chdir.main (cwd : Loc) (arg : List UInt8) : Option (Except String NFiles) :=
  match chdir t f cwd arg with
  | none => some (.error "call chdir")
  | some cwd => (Chdir.myftw t f (t.depth + 1) cwd arg none 0).map fun r => .ok r.2

/-! ### What is counted -/

section Tally

variable (visits : Bool → Loc → Bool) (opens : Loc → Bool)

mutual

/-- The nodes below a location, by type: those that are visited (`true` is for directories),
and those in directories that are opened. -/
def tally : Loc → Node Kind → NFiles
  | l, .leaf k => if visits false l then one k.type else 0
  | l, .dir es => if visits true l then one .dir + (if opens l then tallyEntries l es else 0) else 0

def tallyEntries : Loc → List (Name × Node Kind) → NFiles
  | _, [] => 0
  | l, (n, m) :: es => tally (l ++ [n]) m + tallyEntries l es

end

/-- What is counted for a name in the directory at `l`. -/
def tallyName (es : List (Name × Node Kind)) (l : Loc) (n : Name) : NFiles :=
  match (Node.dir es).child n with
  | none => 0
  | some m => tally visits opens (l ++ [n]) m

variable {visits opens} {es : List (Name × Node Kind)} {l : Loc}

theorem tallyEntries_eq_sum (es : List (Name × Node Kind)) (l : Loc) :
    tallyEntries visits opens l es
      = (es.map fun e => tally visits opens (l ++ [e.1]) e.2).sum := by
  induction es with
  | nil => rfl
  | cons e es ih => rw [tallyEntries, List.map_cons, List.sum_cons, ih]

/-- The entries of a directory are its names. -/
theorem tallyEntries_eq (hnd : (es.map Prod.fst).Nodup) :
    tallyEntries visits opens l es
      = ((es.map Prod.fst).map (tallyName visits opens es l)).sum := by
  rw [tallyEntries_eq_sum, List.map_map]
  refine congrArg List.sum (List.map_congr_left fun e he => ?_)
  have hchild := (Node.child_eq_some_iff hnd (n := e.1) (m := e.2)).mpr he
  simp [tallyName, hchild]

end Tally

/-- What the path-based program visits: what `lstat` succeeds on. -/
def pathVisits (_ : Bool) (l : Loc) : Bool := !f.lstat l

/-- What the chdir-based program visits: directories have to be entered. -/
def chdirVisits (isDir : Bool) (l : Loc) : Bool :=
  !f.lstat l && !(isDir && f.chdir (l.getLastD []) l)

def opens (l : Loc) : Bool := !f.opendir l

/-! ### What the programs count -/

section Walks

variable {t f} {cwd l : Loc} {p : List UInt8} {n : Name} {node : Node Kind}
  {es : List (Name × Node Kind)}

theorem isDir_of_get (h : t.get l = some (.dir es)) : t.isDir l = true :=
  FileTree.Tree.isDir_iff.mpr ⟨es, h⟩

theorem resize_append (s s' : List UInt8) : resize (s ++ s') s.length = s := by
  simp [resize]

theorem lstat_eq (h : resolve t Kind.link false cwd p = some l) (hget : t.get l = some node) :
    lstat t f cwd p = if f.lstat l then none else some (mode node) := by
  rw [lstat, h, Option.bind_some, hget]
  rfl

theorem opendir_eq (h : resolve t Kind.link false cwd p = some l)
    (hget : t.get l = some (.dir es)) :
    opendir t f cwd p
      = if f.opendir l then none else some (dot :: dotdot :: es.map Prod.fst) := by
  rw [opendir, resolve_of_isDir h (isDir_of_get hget), Option.bind_some, hget]

theorem enter_eq {m : Node Kind} (hget : t.get l = some (.dir es))
    (hm : (Node.dir es).child n = some m) :
    enter t l (.name n) = some (l ++ [n]) ∧ t.get (l ++ [n]) = some m := by
  have hchild := FileTree.Tree.get_concat hget n
  rw [hm] at hchild
  simp [enter, hchild]

theorem not_dots (hn : ValidName n) : ¬ (n = dot ∨ n = dotdot) := by
  rintro (h | h)
  · exact hn.2.2.1 h
  · exact hn.2.2.2 h

/-- A loop over names that adds something to the counters for each of them, and brings the
rest of its state back to what it was. -/
theorem foldlM_names {σ : Type*} {s : σ} {step : σ × NFiles → Name → Option (σ × NFiles)}
    (g : Name → NFiles) (ns : List Name)
    (hstep : ∀ n ∈ ns, ∀ nf, step (s, nf) n = some (s, nf + g n)) (nf : NFiles) :
    ns.foldlM step (s, nf) = some (s, nf + (ns.map g).sum) := by
  induction ns generalizing nf with
  | nil => simp
  | cons n ns ih =>
      rw [List.foldlM_cons, hstep n List.mem_cons_self]
      show ns.foldlM step (s, nf + g n) = _
      rw [ih (fun n hn => hstep n (List.mem_cons_of_mem _ hn)), List.map_cons, List.sum_cons,
        add_assoc]

/-- **The path-based program**: called with a path that leads to a node, `myftw` counts what
is visited there, and leaves `pathname` as it was. -/
theorem Path.myftw_eq (fuel : ℕ) (nf : NFiles) (h : resolve t Kind.link false cwd p = some l)
    (hget : t.get l = some node) (hfuel : node.depth < fuel) :
    Path.myftw t f cwd fuel p nf
      = some (p, nf + tally (pathVisits f) (opens f) l node) := by
  induction fuel generalizing p l node nf with
  | zero => omega
  | succ fuel ih =>
      rw [Path.myftw, lstat_eq h hget]
      by_cases hlstat : f.lstat l = true
      · rcases node with k | es <;> simp [hlstat, tally, pathVisits]
      rcases node with k | es
      · cases k <;> simp [hlstat, mode, Kind.type, tally, pathVisits, NFiles.inc_eq]
      · simp only [hlstat, mode, opendir_eq h hget]
        by_cases hopen : f.opendir l = true
        · simp [hopen, tally, pathVisits, opens, hlstat, NFiles.inc_eq]
        · obtain ⟨hnd, hvalid⟩ := FileTree.Tree.wf_dir hget
          -- each name is looked at with the path of the directory restored
          have hvisit : ∀ n ∈ es.map Prod.fst, ∀ nf,
              Path.visit (Path.myftw t f cwd fuel) (p, nf) n
                = some (p, nf + tallyName (pathVisits f) (opens f) es l n) := by
            intro n hn nf
            obtain ⟨⟨n, m⟩, he, rfl⟩ := List.mem_map.mp hn
            have hchild := (Node.child_eq_some_iff hnd).mpr he
            obtain ⟨henter, hm⟩ := enter_eq hget hchild
            have hpath := resolve_child h (isDir_of_get hget) (hvalid n hn)
            have hdepth : m.depth < (Node.dir es).depth := Node.depth_lt he
            rw [Path.visit, if_neg (not_dots (hvalid n hn)),
              ih nf (hpath.trans henter) hm (by omega)]
            simp [resize_append, tallyName, hchild]
          have hdots : (dot :: dotdot :: es.map Prod.fst).foldlM
              (Path.visit (Path.myftw t f cwd fuel)) (p, nf.inc .dir)
              = (es.map Prod.fst).foldlM (Path.visit (Path.myftw t f cwd fuel)) (p, nf.inc .dir) :=
            rfl
          simp only [hopen, Bool.false_eq_true, if_false]
          rw [hdots, foldlM_names _ _ hvisit, ← tallyEntries_eq hnd, NFiles.inc_eq, add_assoc]
          simp [tally, pathVisits, opens, hlstat, hopen]

/-- What `myftw(".", ..)` of `4/12` counts in the directory at `l`. -/
def tallyDir (f : Faults) (l : Loc) (es : List (Name × Node Kind)) : NFiles :=
  one .dir + if opens f l then tallyEntries (chdirVisits f) (opens f) l es else 0

/-- One name in the chdir-based program: the current directory is the same afterwards. -/
theorem Chdir.visit_eq {fuel : ℕ} (hup : ∀ l, f.chdir dotdot l = false)
    (hrec : ∀ l es nf, t.get l = some (.dir es) → (Node.dir es).depth < fuel →
      Chdir.myftw t f fuel l dot (some .dir) nf = some (l, nf + tallyDir f l es))
    (hget : t.get l = some (.dir es)) (hfuel : (Node.dir es).depth ≤ fuel) (hn : ValidName n)
    (nf : NFiles) :
    Chdir.visit t f (Chdir.myftw t f fuel) (l, nf) n
      = some (l, nf + tallyName (chdirVisits f) (opens f) es l n) := by
  rw [Chdir.visit, if_neg (not_dots hn)]
  rcases hchild : (Node.dir es).child n with _ | m
  · -- there is no such file
    have hnone : t.get (l ++ [n]) = none := (FileTree.Tree.get_concat hget n).trans hchild
    simp [lstat, resolve_name hn, enter, hnone, tallyName, hchild]
  obtain ⟨henter, hm⟩ := enter_eq hget hchild
  have hresolve : resolve t Kind.link false l n = some (l ++ [n]) := by
    simp [resolve_name hn, henter]
  rw [lstat_eq hresolve hm]
  have hlast : (l ++ [n]).getLastD [] = n := by simp
  by_cases hlstat : f.lstat (l ++ [n]) = true
  · rcases m with k | es' <;> simp [hlstat, tallyName, hchild, tally, chdirVisits]
  rcases m with k | es'
  · -- the call with the name of a file only counts it
    obtain ⟨fuel, rfl⟩ := Nat.exists_eq_succ_of_ne_zero
      (Nat.ne_of_gt (Nat.lt_of_lt_of_le (Node.depth_child hchild) hfuel))
    cases k <;>
      simp [hlstat, mode, Kind.type, Chdir.myftw, tallyName, hchild, tally, chdirVisits,
        NFiles.inc_eq]
  · have hdir := isDir_of_get hm
    simp only [hlstat, mode, chdir, resolve_of_isDir hresolve hdir, Option.bind_some]
    by_cases hchdir : f.chdir n (l ++ [n]) = true
    · simp [hchdir, tallyName, hchild, tally, chdirVisits, hlstat]
    · have hdepth := Node.depth_child hchild
      have hback : resolve t Kind.link true (l ++ [n]) dotdot = some l :=
        resolve_dotdot (isDir_of_get hget)
      simp only [hchdir, hdir, Bool.false_eq_true, if_false, if_true]
      rw [hrec _ es' nf hm (by omega)]
      simp [hback, hup, isDir_of_get hget, tallyName, hchild, tally, chdirVisits, hlstat, hchdir,
        tallyDir]

/-- The loop of the chdir-based program in the directory at `l`, for any names. -/
theorem Chdir.foldlM_eq {fuel : ℕ} (hup : ∀ l, f.chdir dotdot l = false)
    (hrec : ∀ l es nf, t.get l = some (.dir es) → (Node.dir es).depth < fuel →
      Chdir.myftw t f fuel l dot (some .dir) nf = some (l, nf + tallyDir f l es))
    (hget : t.get l = some (.dir es)) (hfuel : (Node.dir es).depth ≤ fuel) {ns : List Name}
    (hns : ∀ n ∈ ns, ValidName n) (nf : NFiles) :
    (dot :: dotdot :: ns).foldlM (Chdir.visit t f (Chdir.myftw t f fuel)) (l, nf)
      = some (l, nf + (ns.map (tallyName (chdirVisits f) (opens f) es l)).sum) := by
  have hdots : (dot :: dotdot :: ns).foldlM (Chdir.visit t f (Chdir.myftw t f fuel)) (l, nf)
      = ns.foldlM (Chdir.visit t f (Chdir.myftw t f fuel)) (l, nf) := rfl
  rw [hdots]
  exact foldlM_names _ ns (fun n hn nf => Chdir.visit_eq hup hrec hget hfuel (hns n hn) nf) nf

/-- **The chdir-based program**: `myftw(".", ..)` called in a directory counts what is
visited there, and returns to the directory. -/
theorem Chdir.myftw_dot (hup : ∀ l, f.chdir dotdot l = false) (fuel : ℕ) :
    ∀ l es nf, t.get l = some (.dir es) → (Node.dir es).depth < fuel →
      Chdir.myftw t f fuel l dot (some .dir) nf = some (l, nf + tallyDir f l es) := by
  induction fuel with
  | zero =>
      intro l es nf _ hfuel
      omega
  | succ fuel ih =>
      intro l es nf hget hfuel
      obtain ⟨hnd, hvalid⟩ := FileTree.Tree.wf_dir hget
      have hst : (some FileType.dir <|> lstat t f l dot) = some .dir := rfl
      rw [Chdir.myftw, hst]
      simp only [opendir_eq (resolve_dot (isDir_of_get hget)) hget]
      by_cases hopen : f.opendir l = true
      · simp [hopen, tallyDir, opens, NFiles.inc_eq]
      · simp only [hopen, Bool.false_eq_true, if_false]
        rw [Chdir.foldlM_eq hup ih hget (by omega) hvalid, ← tallyEntries_eq hnd, NFiles.inc_eq,
          add_assoc]
        simp [tallyDir, opens, hopen]

end Walks

/-! ### The two programs compared -/

section Compare

variable {t} {cwd loc l : Loc} {arg : List UInt8} {node : Node Kind}
  {es : List (Name × Node Kind)}

/-- Every node counts. -/
def count (l : Loc) (node : Node Kind) : NFiles := tally (fun _ _ => true) (fun _ => true) l node

/-- What a name in the directory at `l` counts for. -/
def countName (es : List (Name × Node Kind)) (l : Loc) (n : Name) : NFiles :=
  tallyName (fun _ _ => true) (fun _ => true) es l n

theorem chdirVisits_none : chdirVisits Faults.none = fun _ _ => true := by
  funext isDir l
  simp [chdirVisits, Faults.none]

theorem opens_none : opens Faults.none = fun _ => true := rfl

theorem count_dir (hnd : (es.map Prod.fst).Nodup) :
    count l (.dir es) = one .dir + ((es.map Prod.fst).map (countName es l)).sum := by
  have hentries : tallyEntries (fun _ _ => true) (fun _ => true) l es
      = ((es.map Prod.fst).map (countName es l)).sum := tallyEntries_eq hnd
  simp [count, tally, hentries]

theorem count_pos (l : Loc) (node : Node Kind) : 0 < count l node (mode node) := by
  rcases node with k | es
  · simp [count, tally, mode, one]
  · simp [count, tally, mode, one]

theorem countName_pos {n : Name} (hn : n ∈ es.map Prod.fst) (hnd : (es.map Prod.fst).Nodup)
    (l : Loc) : ∃ ty, 0 < countName es l n ty := by
  obtain ⟨⟨n, m⟩, he, rfl⟩ := List.mem_map.mp hn
  have hchild := (Node.child_eq_some_iff hnd).mpr he
  refine ⟨mode m, ?_⟩
  simpa [countName, tallyName, hchild, count] using count_pos (l ++ [n]) m

theorem countName_eq_zero {n : Name} (hn : n ∉ es.map Prod.fst) (l : Loc) :
    countName es l n = 0 := by
  rcases hchild : (Node.dir es).child n with _ | m
  · simp [countName, tallyName, hchild]
  · exact absurd (List.mem_map_of_mem (f := Prod.fst) (Node.mem_of_child hchild)) hn

/-- Summed over other names, the names of a directory count for the same exactly if they are
all there. -/
theorem sum_countName_eq_iff (hnd : (es.map Prod.fst).Nodup) {ns : List Name} (hns : ns.Nodup)
    (l : Loc) :
    ((es.map Prod.fst).map (countName es l)).sum = (ns.map (countName es l)).sum ↔
      ∀ n ∈ es.map Prod.fst, n ∈ ns := by
  rw [← List.sum_toFinset _ hnd, ← List.sum_toFinset _ hns]
  -- names that are not in the directory count for nothing
  have hinter : ∑ n ∈ ns.toFinset, countName es l n
      = ∑ n ∈ (es.map Prod.fst).toFinset ∩ ns.toFinset, countName es l n := by
    refine (Finset.sum_subset Finset.inter_subset_right fun n hn hout => ?_).symm
    refine countName_eq_zero (fun hmem => hout ?_) l
    exact Finset.mem_inter.mpr ⟨List.mem_toFinset.mpr hmem, hn⟩
  rw [hinter, ← Finset.sum_inter_add_sum_sdiff (es.map Prod.fst).toFinset ns.toFinset]
  constructor
  · intro hsum n hn
    by_contra hout
    have hrest : ∑ n ∈ (es.map Prod.fst).toFinset \ ns.toFinset, countName es l n = 0 :=
      left_eq_add.mp hsum.symm
    obtain ⟨ty, hpos⟩ := countName_pos hn hnd l
    have hty := congrFun hrest ty
    rw [Finset.sum_apply, Pi.zero_apply, Finset.sum_eq_zero_iff] at hty
    have := hty n (Finset.mem_sdiff.mpr
      ⟨List.mem_toFinset.mpr hn, fun h => hout (List.mem_toFinset.mp h)⟩)
    omega
  · intro hall
    have hempty : (es.map Prod.fst).toFinset \ ns.toFinset = ∅ := by
      refine Finset.sdiff_eq_empty_iff_subset.mpr fun n hn => ?_
      exact List.mem_toFinset.mpr (hall n (List.mem_toFinset.mp hn))
    rw [hempty, Finset.sum_empty, add_zero]

/-- A call of `lstat` that cannot fail. -/
theorem lstat_none_eq (h : resolve t Kind.link false cwd arg = some l)
    (hget : t.get l = some node) : lstat t Faults.none cwd arg = some (mode node) := by
  rw [lstat_eq h hget]
  rfl

theorem Path.main_eq (h : resolve t Kind.link false cwd arg = some l)
    (hget : t.get l = some node) : Path.main t Faults.none cwd arg = some (count l node) := by
  have hdepth := FileTree.Tree.depth_get hget
  rw [Path.main, Path.myftw_eq _ 0 h hget (by omega), zero_add]
  rfl

/-- The pathname leads to the directory itself, or to a symbolic link. -/
theorem chdir_cases (h : chdir t Faults.none cwd arg = some loc) :
    (∃ es, t.get loc = some (.dir es)) ∧
      (resolve t Kind.link false cwd arg = some loc ∨
        ∃ l target, resolve t Kind.link false cwd arg = some l ∧
          t.get l = some (.leaf (.slink target))) := by
  obtain ⟨l, hl, hif⟩ := Option.bind_eq_some_iff.mp h
  simp only [Faults.none, Bool.false_eq_true, if_false] at hif
  split at hif
  · next hdir =>
    obtain rfl := Option.some.inj hif
    refine ⟨FileTree.Tree.isDir_iff.mp hdir, ?_⟩
    obtain ⟨es, hes⟩ := FileTree.Tree.isDir_iff.mp hdir
    obtain ⟨l₀, hl₀, hderef⟩ := resolve_unfollowed hl
    unfold deref at hderef
    split at hderef
    · next k hk =>
      rcases k with _ | _ | _ | _ | _ | target
      case slink => exact .inr ⟨l₀, target, hl₀, hk⟩
      all_goals
        obtain rfl := Option.some.inj hderef
        rw [hes] at hk
        cases hk
    · obtain rfl := Option.some.inj hderef
      exact .inl hl₀
  · cases hif

/-- The chdir-based program when `lstat` finds nothing from inside the directory. -/
theorem Chdir.main_of_none (h : chdir t Faults.none cwd arg = some loc)
    (hlstat : lstat t Faults.none loc arg = none) :
    Chdir.main t Faults.none cwd arg = some (.ok 0) := by
  simp [Chdir.main, h, Chdir.myftw, hlstat]

/-- The chdir-based program when `lstat` finds a file that is not a directory. -/
theorem Chdir.main_of_leaf {k : Kind} (h : chdir t Faults.none cwd arg = some loc)
    (hlstat : lstat t Faults.none loc arg = some k.type) :
    Chdir.main t Faults.none cwd arg = some (.ok (one k.type)) := by
  cases k <;> simp [Chdir.main, h, Chdir.myftw, hlstat, Kind.type, NFiles.inc_eq]

/-- The chdir-based program when `lstat` finds a directory: it takes the names from this
directory, and the files from the current one. -/
theorem Chdir.main_of_dir {es' : List (Name × Node Kind)} {d : Loc}
    (h : chdir t Faults.none cwd arg = some loc) (hget : t.get loc = some (.dir es))
    (hd : resolve t Kind.link false loc arg = some d) (hgetd : t.get d = some (.dir es')) :
    Chdir.main t Faults.none cwd arg
      = some (.ok (one .dir + ((es'.map Prod.fst).map (countName es loc)).sum)) := by
  have hup : ∀ l, Faults.none.chdir dotdot l = false := fun _ => rfl
  have hst : (none <|> lstat t Faults.none loc arg) = some .dir := lstat_none_eq hd hgetd
  have hloop := Chdir.foldlM_eq hup (Chdir.myftw_dot hup t.depth) hget (FileTree.Tree.depth_get hget)
    (FileTree.Tree.wf_dir hgetd).2 (NFiles.inc 0 .dir)
  rw [Chdir.main, h]
  simp only
  rw [Chdir.myftw, hst]
  simp only [opendir_eq hd hgetd]
  rw [show (if Faults.none.opendir d = true then none
      else some (dot :: dotdot :: es'.map Prod.fst)) = some (dot :: dotdot :: es'.map Prod.fst)
    from rfl]
  simp only [hloop, chdirVisits_none, opens_none]
  rw [NFiles.inc_eq, zero_add]
  rfl

/-- The programs end with the same counters. -/
def SameCounters (t : FileTree.Tree Kind) (cwd : Loc) (arg : List UInt8) : Prop :=
  ∃ nf, Path.main t Faults.none cwd arg = some nf ∧ Chdir.main t Faults.none cwd arg = some (.ok nf)

/-- The pathname, taken from inside the directory at `loc`, is again a directory, and has
all the names in it. -/
def NamesFromInside (t : FileTree.Tree Kind) (loc : Loc) (arg : List UInt8) : Prop :=
  lstat t Faults.none loc arg = some .dir ∧ ∃ ms ns, opendir t Faults.none loc dot = some ms ∧
    opendir t Faults.none loc arg = some ns ∧ ∀ n ∈ ms, n ∈ ns

theorem namesFromInside_iff {es' : List (Name × Node Kind)} {d : Loc}
    (hget : t.get loc = some (.dir es)) (hd : resolve t Kind.link false loc arg = some d)
    (hgetd : t.get d = some (.dir es')) :
    NamesFromInside t loc arg ↔ ∀ n ∈ es.map Prod.fst, n ∈ es'.map Prod.fst := by
  have hms := opendir_eq (f := Faults.none) (resolve_dot (isDir_of_get hget)) hget
  have hns := opendir_eq (f := Faults.none) hd hgetd
  constructor
  · rintro ⟨-, ms, ns, hms', hns', hall⟩ n hn
    obtain rfl := Option.some.inj (hms'.symm.trans hms)
    obtain rfl := Option.some.inj (hns'.symm.trans hns)
    have hvalid := (FileTree.Tree.wf_dir hget).2 n hn
    have hmem := hall n (List.mem_cons_of_mem _ (List.mem_cons_of_mem _ hn))
    have hdots := not_dots hvalid
    rcases List.mem_cons.mp hmem with rfl | hmem
    · exact absurd (.inl rfl) hdots
    rcases List.mem_cons.mp hmem with rfl | hmem
    · exact absurd (.inr rfl) hdots
    · exact hmem
  · intro hall
    refine ⟨lstat_none_eq hd hgetd, _, _, hms, hns, fun n hn => ?_⟩
    rcases List.mem_cons.mp hn with rfl | hn
    · exact List.mem_cons_self
    rcases List.mem_cons.mp hn with rfl | hn
    · exact List.mem_cons_of_mem _ List.mem_cons_self
    · exact List.mem_cons_of_mem _ (List.mem_cons_of_mem _ (hall n hn))

/-- The programs on a directory: `4/12` has to find a directory with the same names from
inside. -/
theorem sameCounters_dir_iff (h : chdir t Faults.none cwd arg = some loc)
    (hroot : resolve t Kind.link false cwd arg = some loc) (hget : t.get loc = some (.dir es)) :
    SameCounters t cwd arg ↔ NamesFromInside t loc arg := by
  have hpath := Path.main_eq hroot hget
  have hdir : 0 < count loc (.dir es) FileType.dir := count_pos loc (.dir es)
  rcases hl : lstat t Faults.none loc arg with _ | ty
  · refine ⟨?_, fun hn => absurd (hl.symm.trans hn.1) (by simp)⟩
    rintro ⟨nf, hnf, hnf'⟩
    rw [hpath] at hnf
    rw [Chdir.main_of_none h hl] at hnf'
    obtain rfl := Option.some.inj hnf
    have hzero := Except.ok.inj (Option.some.inj hnf')
    rw [← hzero] at hdir
    exact absurd hdir (by simp)
  · obtain ⟨d, hd, hif⟩ := Option.bind_eq_some_iff.mp hl
    obtain ⟨node, hgetd, rfl⟩ := Option.map_eq_some_iff.mp
      (show (t.get d).map mode = some ty from hif)
    rcases node with k | es'
    · refine ⟨?_, fun hn => absurd (Option.some.inj (hl.symm.trans hn.1)) k.type_ne_dir⟩
      rintro ⟨nf, hnf, hnf'⟩
      rw [hpath] at hnf
      rw [Chdir.main_of_leaf h hl] at hnf'
      obtain rfl := Option.some.inj hnf
      have hone := Except.ok.inj (Option.some.inj hnf')
      rw [← hone] at hdir
      simp [one, (k.type_ne_dir).symm] at hdir
    · obtain ⟨hnd, -⟩ := FileTree.Tree.wf_dir hget
      rw [namesFromInside_iff hget hd hgetd,
        ← sum_countName_eq_iff hnd (FileTree.Tree.wf_dir hgetd).1 loc]
      have hchdir := Chdir.main_of_dir h hget hd hgetd
      rw [count_dir hnd] at hpath
      constructor
      · rintro ⟨nf, hnf, hnf'⟩
        obtain rfl := Option.some.inj (hpath.symm.trans hnf)
        exact (add_left_cancel (Except.ok.inj (Option.some.inj (hchdir.symm.trans hnf')))).symm
      · intro hsum
        exact ⟨_, hpath, by rw [hchdir, hsum]⟩

/-- The programs on a symbolic link to a directory: `4/7` counts the link, and `4/12` has to
find a link from inside. -/
theorem sameCounters_slink_iff (h : chdir t Faults.none cwd arg = some loc) {target : Option Loc}
    (hroot : resolve t Kind.link false cwd arg = some l)
    (hget : t.get l = some (.leaf (.slink target))) :
    SameCounters t cwd arg ↔ lstat t Faults.none loc arg = some .slink := by
  have hpath : Path.main t Faults.none cwd arg = some (one .slink) := by
    rw [Path.main_eq hroot hget]
    simp [count, tally, Kind.type]
  have hsame : SameCounters t cwd arg ↔
      Chdir.main t Faults.none cwd arg = some (.ok (one .slink)) := by
    constructor
    · rintro ⟨nf, hnf, hnf'⟩
      obtain rfl := Option.some.inj (hpath.symm.trans hnf)
      exact hnf'
    · intro hnf
      exact ⟨_, hpath, hnf⟩
  rw [hsame]
  rcases hl : lstat t Faults.none loc arg with _ | ty
  · rw [Chdir.main_of_none h hl]
    refine ⟨fun he => ?_, fun he => by cases he⟩
    have hzero := congrFun (Except.ok.inj (Option.some.inj he)) .slink
    simp [one] at hzero
  · obtain ⟨d, hd, hif⟩ := Option.bind_eq_some_iff.mp hl
    obtain ⟨node, hgetd, rfl⟩ := Option.map_eq_some_iff.mp
      (show (t.get d).map mode = some ty from hif)
    rcases node with k | es'
    · rw [Chdir.main_of_leaf h hl]
      refine ⟨fun he => ?_, fun he => ?_⟩
      · have hone := congrFun (Except.ok.inj (Option.some.inj he)) .slink
        have htype : k.type = .slink := by
          by_contra hne
          simp [one, Ne.symm hne] at hone
        exact congrArg some htype
      · have htype : k.type = .slink := Option.some.inj he
        rw [htype]
    · obtain ⟨es, hes⟩ := (chdir_cases h).1
      rw [Chdir.main_of_dir h hes hd hgetd]
      refine ⟨fun he => ?_, fun he => by cases he⟩
      have hdir := congrFun (Except.ok.inj (Option.some.inj he)) .dir
      simp [one] at hdir

/-- **When the two programs agree**: for every tree, every current directory and every
pathname that leads to a directory, they end with the same counters exactly if the pathname
is a directory from outside and one with all its names from inside, or is a symbolic link
from outside and from inside. -/
theorem same_counters_iff (t : FileTree.Tree Kind) (cwd loc : Loc) (arg : List UInt8)
    (h : chdir t Faults.none cwd arg = some loc) :
    SameCounters t cwd arg ↔
      (lstat t Faults.none cwd arg = some .dir ∧ NamesFromInside t loc arg) ∨
        (lstat t Faults.none cwd arg = some .slink ∧ lstat t Faults.none loc arg = some .slink) := by
  obtain ⟨⟨es, hes⟩, hroot | ⟨l, target, hroot, hlink⟩⟩ := chdir_cases h
  · have hl : lstat t Faults.none cwd arg = some .dir := lstat_none_eq hroot hes
    rw [sameCounters_dir_iff h hroot hes, hl]
    simp
  · have hl : lstat t Faults.none cwd arg = some .slink := lstat_none_eq hroot hlink
    rw [sameCounters_slink_iff h hroot hlink, hl]
    simp

/-- An absolute pathname is the same from outside and from inside. -/
theorem sameCounters_of_absolute (h : chdir t Faults.none cwd arg = some loc)
    (habs : arg.head? = some 47) : SameCounters t cwd arg := by
  obtain ⟨⟨es, hes⟩, hroot | ⟨l, target, hroot, hlink⟩⟩ := chdir_cases h
  · have hinside := (resolve_absolute habs loc).symm.trans hroot
    rw [sameCounters_dir_iff h hroot hes, namesFromInside_iff hes hinside hes]
    exact fun n hn => hn
  · have hinside := (resolve_absolute habs loc).symm.trans hroot
    rw [sameCounters_slink_iff h hroot hlink]
    exact lstat_none_eq hinside hlink

end Compare

/-- A tree with one directory "a" that holds one file "f". -/
def smallTree : FileTree.Tree Kind where
  entries := [([97], .dir [([102], .leaf .reg)])]
  wf := by simp [Node.WF, Node.WFEntries, ValidName, dot, dotdot]

/-- Started in the root with the argument "a", the path-based program counts a directory and
a file, and the chdir-based one nothing. -/
theorem smallTree_differs : chdir smallTree Faults.none [] [97] = some [[97]] ∧
    ¬ SameCounters smallTree [] [97] := by
  refine ⟨by decide +kernel, ?_⟩
  rintro ⟨nf, hpath, hchdir⟩
  have hdirs : (Path.main smallTree Faults.none [] [97]).map (fun nf => nf .dir) = some 1 := by
    decide +kernel
  have hnone : (Chdir.main smallTree Faults.none [] [97]).map
      (fun r => r.toOption.map fun nf => nf .dir) = some (some 0) := by decide +kernel
  rw [hpath] at hdirs
  rw [hchdir] at hnone
  have h₁ : nf .dir = 1 := Option.some.inj hdirs
  have h₀ : nf .dir = 0 := Option.some.inj (Option.some.inj hnone)
  omega

/-- With the argument "/a" they agree. -/
theorem smallTree_agrees : chdir smallTree Faults.none [] [47, 97] = some [[97]] ∧
    SameCounters smallTree [] [47, 97] := by
  have hchdir : chdir smallTree Faults.none [] [47, 97] = some [[97]] := by decide +kernel
  refine ⟨hchdir, (same_counters_iff smallTree [] [[97]] [47, 97] hchdir).mpr (.inl ?_)⟩
  exact ⟨by decide +kernel, by decide +kernel, [dot, dotdot, [102]], [dot, dotdot, [102]],
    by decide +kernel, by decide +kernel, fun _ hn => hn⟩

end Apue.TreeWalk
