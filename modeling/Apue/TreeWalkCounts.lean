/-
Apue/TreeWalkCounts.lean

Which files the two programs of `TreeWalk` count.

`tally` follows the recursion of the programs.  Here it is turned into the number of
files in a set: a file is counted once if the program gets to it, and otherwise not at
all.  What keeps the programs from a file is said with the calls that fail on the way to
it, for every pattern of failures.

Both functions have to undo what they do to their surroundings before they return: the
path-based one shortens `pathname` again, whatever the call inside has left there, and
the chdir-based one goes back with `chdir("..")`.
-/
import Apue.FileTreeWalk
import Apue.TreeWalk

namespace Apue.TreeWalk

open FileTree

/-! ### Counting by type -/

section Tally

variable {visits : Bool → Loc → Bool} {opens : Loc → Bool} {l : Loc}
  {node : Node Kind} {es : List (Name × Node Kind)}

/-- The recursion counts the nodes of a walk. -/
theorem tally_eq_countP (ty : FileType) :
    tally visits opens l node ty = (walk visits opens l node).countP fun x => mode x.2 = ty := by
  induction node using Node.induction generalizing l with
  | leaf k =>
      rw [tally, walk]
      by_cases hv : visits false l = true
      · simp [hv, one, mode, eq_comm]
      · simp [hv]
  | dir es ih =>
      have hentries : tallyEntries visits opens l es ty
          = (walkEntries visits opens l es).countP fun x => mode x.2 = ty := by
        rw [tallyEntries_eq_sum, Pi.list_sum_apply, walkEntries_eq_flatMap, List.countP_flatMap,
          List.map_map]
        refine congrArg List.sum (List.map_congr_left fun e he => ?_)
        rw [Function.comp_apply, ih e he, Function.comp_apply, List.countP_map]
        rfl
      rw [tally, walk]
      by_cases hv : visits true l = true
      · by_cases ho : opens l = true
        · simp [hv, ho, hentries, one, mode, List.countP_cons, eq_comm, Nat.add_comm]
        · simp [hv, ho, one, mode, List.countP_cons, eq_comm]
      · simp [hv]

/-- **What the recursion counts**, as the number of files of a type that are seen. -/
theorem tally_eq_ncard (visits : Bool → Loc → Bool) (opens : Loc → Bool) (l : Loc)
    (hwf : node.WF) (ty : FileType) :
    (seenNodes visits opens (fun m => mode m = ty) l node).Finite ∧
      tally visits opens l node ty
        = (seenNodes visits opens (fun m => mode m = ty) l node).ncard := by
  obtain ⟨hfin, hcount⟩ := countP_walk visits opens l hwf fun m => decide (mode m = ty)
  exact ⟨hfin, (tally_eq_countP ty).trans hcount⟩

/-- What is visited at `l` or above does not matter for the entries. -/
theorem tallyEntries_congr {visits' : Bool → Loc → Bool}
    (h : ∀ b x, l.length < x.length → visits b x = visits' b x) :
    tallyEntries visits opens l es = tallyEntries visits' opens l es := by
  have hnode : ∀ (node : Node Kind) (x : Loc), l.length < x.length →
      tally visits opens x node = tally visits' opens x node := by
    intro node
    induction node using Node.induction with
    | leaf k =>
        intro x hx
        rw [tally, tally, h _ _ hx]
    | dir es ih =>
        intro x hx
        rw [tally, tally, h _ _ hx, tallyEntries_eq_sum, tallyEntries_eq_sum]
        have hlonger : ∀ n : Name, l.length < (x ++ [n]).length := by
          intro n
          rw [List.length_append]
          omega
        rw [List.map_congr_left fun e he => ih e he _ (hlonger e.1)]
  rw [tallyEntries_eq_sum, tallyEntries_eq_sum]
  refine congrArg List.sum (List.map_congr_left fun e _ => hnode e.2 _ ?_)
  rw [List.length_append]
  exact Nat.lt_succ_self _

end Tally

variable (t : FileTree.Tree Kind) (f : Faults)

/-! ### The path-based program -/

/-- The files below the root of the walk that `4/7` should count: `lstat` succeeds on them,
and `lstat` and `opendir` on all their ancestors. -/
def Path.counted (l : Loc) (node : Node Kind) (ty : FileType) : Set Loc :=
  {rel | ∃ m, node.get rel = some m ∧ mode m = ty ∧ f.lstat (l ++ rel) = false ∧
    ∀ q, q <+: rel → q ≠ rel → f.lstat (l ++ q) = false ∧ f.opendir (l ++ q) = false}

theorem Path.counted_eq (l : Loc) (node : Node Kind) (ty : FileType) :
    Path.counted f l node ty
      = seenNodes (pathVisits f) (opens f) (fun m => mode m = ty) l node := by
  ext rel
  simp [Path.counted, seenNodes, Seen, pathVisits, opens]

/-- The loop of `myftw` leaves `pathname` as it was, if the calls inside do. -/
theorem Path.foldlM_pathname {rec : List UInt8 → NFiles → Option (List UInt8 × NFiles)}
    (hrec : ∀ p nf r, rec p nf = some r → r.1 = p) :
    ∀ (names : List Name) (s r : List UInt8 × NFiles),
      names.foldlM (Path.visit rec) s = some r → r.1 = s.1 := by
  intro names
  induction names with
  | nil =>
      intro s r h
      rw [Option.some.inj h]
  | cons name names ih =>
      intro s r h
      obtain ⟨s', hvisit, hrest⟩ := Option.bind_eq_some_iff.mp h
      rw [ih s' r hrest]
      obtain ⟨p, nf⟩ := s
      rw [Path.visit] at hvisit
      split at hvisit
      · rw [← Option.some.inj hvisit]
      · obtain ⟨r', hr', rfl⟩ := Option.map_eq_some_iff.mp hvisit
        show resize r'.1 p.length = p
        rw [hrec _ _ _ hr', resize_append]

/-- Every call of `myftw` leaves `pathname` as it was, by whatever exit it returns. -/
theorem Path.myftw_pathname (cwd : Loc) : ∀ (fuel : ℕ) (p : List UInt8) (nf : NFiles)
    (r : List UInt8 × NFiles), Path.myftw t f cwd fuel p nf = some r → r.1 = p := by
  intro fuel
  induction fuel with
  | zero =>
      intro p nf r h
      cases h
  | succ fuel ih =>
      intro p nf r h
      rw [Path.myftw] at h
      split at h
      · rw [← Option.some.inj h]
      · split at h
        · rw [← Option.some.inj h]
        · exact Path.foldlM_pathname ih _ _ _ h
      · rw [← Option.some.inj h]

variable {t f}

/-- **What the path-based program counts.**  Called with a pathname that leads to a node,
`myftw` counts by type, once each, the files below it whose own `lstat` and the `lstat`
and `opendir` of all of whose ancestors succeed, and no others.  This call and every call
inside it return with `pathname` as it was. -/
theorem Path.counts_reachable {cwd l : Loc} {p : List UInt8} {node : Node Kind} {fuel : ℕ}
    (h : resolve t Kind.link false cwd p = some l) (hget : t.get l = some node)
    (hfuel : node.depth < fuel) (nf : NFiles) :
    (∃ nf', Path.myftw t f cwd fuel p nf = some (p, nf') ∧
      ∀ ty, (Path.counted f l node ty).Finite ∧
        nf' ty = nf ty + (Path.counted f l node ty).ncard) ∧
      ∀ fuel' p' nf' r, Path.myftw t f cwd fuel' p' nf' = some r → r.1 = p' := by
  refine ⟨⟨_, Path.myftw_eq fuel nf h hget hfuel, fun ty => ?_⟩, Path.myftw_pathname t f cwd⟩
  obtain ⟨hfin, hcount⟩ := tally_eq_ncard (pathVisits f) (opens f) l (t.wf.get hget) ty
  rw [Path.counted_eq]
  exact ⟨hfin, congrArg (nf ty + ·) hcount⟩

/-- What is in the directory "a": the file "f", and the directories "b" and "c" with a file in
each. -/
def entriesOfA : List (Name × Node Kind) :=
  [([102], .leaf .reg), ([98], .dir [([103], .leaf .reg)]), ([99], .dir [([104], .leaf .reg)])]

def deepTree : FileTree.Tree Kind where
  entries := [([97], .dir entriesOfA)]
  wf := by simp [entriesOfA, Node.WF, Node.WFEntries, ValidName, dot, dotdot]

/-- "/a/b" cannot be opened, and "/a/c" not be entered. -/
def deepFaults : Faults where
  lstat _ := false
  opendir l := l = [[97], [98]]
  chdir p l := p ≠ dotdot && l = [[97], [99]]

/-- The file in "b" is not counted. -/
theorem deepTree_path_counts :
    (∃ nf', Path.myftw deepTree deepFaults [] 4 [97] 0 = some ([97], nf') ∧
      (nf' .dir, nf' .reg) = (3, 2) ∧
      ∀ ty, (Path.counted deepFaults [[97]] (.dir entriesOfA) ty).Finite ∧
        nf' ty = (0 : NFiles) ty + (Path.counted deepFaults [[97]] (.dir entriesOfA) ty).ncard) ∧
      ∀ fuel' p' nf' r, Path.myftw deepTree deepFaults [] fuel' p' nf' = some r → r.1 = p' := by
  obtain ⟨⟨nf', hrun, hcounts⟩, hpathname⟩ := @Path.counts_reachable deepTree deepFaults [] [[97]]
    [97] (.dir entriesOfA) 4 (by decide +kernel) rfl (by decide +kernel) 0
  have heval : (Path.myftw deepTree deepFaults [] 4 [97] 0).map (fun r => (r.2 .dir, r.2 .reg))
      = some (3, 2) := by decide +kernel
  rw [hrun] at heval
  exact ⟨⟨nf', hrun, Option.some.inj heval, hcounts⟩, hpathname⟩

/-! ### The chdir-based program -/

/-- The files that `4/12` should count when it is called in the directory at `d`: the
directory itself, and the files below it on which `lstat` succeeds, and `chdir` if they
are directories, if every directory on the way was opened and, below `d`, entered. -/
def Chdir.counted (f : Faults) (d : Loc) (es : List (Name × Node Kind)) (ty : FileType) :
    Set Loc :=
  {rel | ∃ m, (Node.dir es).get rel = some m ∧ mode m = ty ∧
    (rel ≠ [] → f.lstat (d ++ rel) = false ∧
      (m.isDir = true → f.chdir (rel.getLastD []) (d ++ rel) = false)) ∧
    ∀ q, q <+: rel → q ≠ rel → f.opendir (d ++ q) = false ∧
      (q ≠ [] → f.lstat (d ++ q) = false ∧ f.chdir (q.getLastD []) (d ++ q) = false)}

/-- What the chdir-based program visits when it is called in the directory at `d`. -/
def visitsFrom (f : Faults) (d : Loc) (isDir : Bool) (x : Loc) : Bool :=
  x = d || chdirVisits f isDir x

theorem visitsFrom_append {d rel : Loc} {isDir : Bool} : visitsFrom f d isDir (d ++ rel) = true ↔
    (rel ≠ [] → f.lstat (d ++ rel) = false ∧
      (isDir = true → f.chdir (rel.getLastD []) (d ++ rel) = false)) := by
  by_cases hrel : rel = []
  · simp [hrel, visitsFrom]
  · have hlast : (d ++ rel).getLastD [] = rel.getLastD [] := by
      rw [List.getLastD_eq_getLast?, List.getLast?_append_of_ne_nil _ hrel,
        List.getLastD_eq_getLast?]
    have hne : ¬ d ++ rel = d := fun he => hrel (List.append_right_eq_self.mp he)
    rw [visitsFrom, chdirVisits, hlast]
    cases isDir <;> simp [hrel, hne]

theorem Chdir.counted_eq (d : Loc) (es : List (Name × Node Kind)) (ty : FileType) :
    Chdir.counted f d es ty
      = seenNodes (visitsFrom f d) (opens f) (fun m => mode m = ty) d (.dir es) := by
  ext rel
  simp only [Chdir.counted, seenNodes, Seen, Set.mem_ofPred_eq, visitsFrom_append, opens,
    decide_eq_true_eq, Bool.not_eq_true', forall_const]
  refine exists_congr fun m => and_congr_right fun _ => and_congr_right fun _ =>
    and_congr_right fun _ => forall_congr' fun q => imp_congr_right fun _ =>
      imp_congr_right fun _ => and_comm

/-- The recursion from the directory at `d`. -/
theorem tallyDir_eq (d : Loc) (es : List (Name × Node Kind)) :
    tallyDir f d es = tally (visitsFrom f d) (opens f) d (.dir es) := by
  have hentries : tallyEntries (chdirVisits f) (opens f) d es
      = tallyEntries (visitsFrom f d) (opens f) d es := by
    refine tallyEntries_congr fun b x hx => ?_
    have hne : x ≠ d := fun he => absurd hx (by rw [he]; exact Nat.lt_irrefl _)
    simp [visitsFrom, hne]
  rw [tallyDir, tally, hentries]
  simp [visitsFrom]

/-- **What the chdir-based program counts.**  If `chdir("..")` succeeds, a call
`myftw(".", st, nf)` in the directory at `d`, with the status of `d` or none and a
successful `lstat`, returns with the current directory at `d` again.  It has counted, by
type and once each, `d` and the files below it that it could get to, and no others. -/
theorem Chdir.returns_counting (hup : ∀ l, f.chdir dotdot l = false) {d : Loc}
    {es : List (Name × Node Kind)} (hget : t.get d = some (.dir es)) {fuel : ℕ}
    (hfuel : (Node.dir es).depth < fuel) {st : Option FileType}
    (hst : st = some .dir ∨ st = none ∧ f.lstat d = false) (nf : NFiles) :
    ∃ nf', Chdir.myftw t f fuel d dot st nf = some (d, nf') ∧
      ∀ ty, (Chdir.counted f d es ty).Finite ∧
        nf' ty = nf ty + (Chdir.counted f d es ty).ncard := by
  have hcall : Chdir.myftw t f fuel d dot st nf = Chdir.myftw t f fuel d dot (some .dir) nf := by
    rcases hst with rfl | ⟨rfl, hlstat⟩
    · rfl
    obtain ⟨fuel, rfl⟩ := Nat.exists_eq_succ_of_ne_zero (Nat.ne_of_gt (Nat.zero_lt_of_lt hfuel))
    have hst : lstat t f d dot = some .dir := by
      rw [lstat_eq (resolve_dot (isDir_of_get hget)) hget, hlstat]
      rfl
    rw [Chdir.myftw, Chdir.myftw, hst]
    rfl
  refine ⟨_, hcall.trans (Chdir.myftw_dot hup fuel d es nf hget hfuel), fun ty => ?_⟩
  obtain ⟨hfin, hcount⟩ := tally_eq_ncard (visitsFrom f d) (opens f) d (t.wf.get hget) ty
  rw [Chdir.counted_eq]
  refine ⟨hfin, ?_⟩
  rw [Pi.add_apply, tallyDir_eq, hcount]

/-- The directory "c" and what is below "b" and "c" are not counted. -/
theorem deepTree_chdir_counts :
    ∃ nf', Chdir.myftw deepTree deepFaults 5 [] dot (some .dir) 0 = some ([], nf') ∧
      (nf' .dir, nf' .reg) = (3, 1) ∧
      ∀ ty, (Chdir.counted deepFaults [] deepTree.entries ty).Finite ∧
        nf' ty = (0 : NFiles) ty + (Chdir.counted deepFaults [] deepTree.entries ty).ncard := by
  obtain ⟨nf', hrun, hcounts⟩ := @Chdir.returns_counting deepTree deepFaults
    (fun l => by simp [deepFaults]) [] deepTree.entries rfl 5 (by decide +kernel) (some .dir)
    (.inl rfl) 0
  have heval : (Chdir.myftw deepTree deepFaults 5 [] dot (some .dir) 0).map
      (fun r => (r.2 .dir, r.2 .reg)) = some (3, 1) := by decide +kernel
  rw [hrun] at heval
  exact ⟨nf', hrun, Option.some.inj heval, hcounts⟩

end Apue.TreeWalk
