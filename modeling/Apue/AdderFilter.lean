/-
Apue/AdderFilter.lean

The filter `15/8_filter_add_2.cpp` with its buffer.

    while ((n = read(STDIN_FILENO, line, MAXLINE)) > 0) {
        line[n] = 0;
        sscanf(line, ...);  sprintf(line, ...);  writen(STDOUT_FILENO, line, ...)
    }

`line` is the target of `read`, the text that `sscanf` scans and the target of `sprintf`, and
has `MAXLINE` bytes.  `read` may fill all of them, and then `line[n]` lies behind the buffer.
Otherwise the zero byte separates the bytes of the read from what is left of earlier passes,
and `sscanf` sees them up to the first zero byte that is one of them.  So the buffer is used
as intended exactly if no read fills it and none returns a zero byte (`bufferOk_iff`).

How standard input is split into reads and how the writes go is chosen by the kernel
(`FileIO`).  The numbers and the answer are those of `Coprocess`, whose filter has the text
of a request instead of a buffer; the one here writes the same answers (`main_answers`).
-/
import Apue.ByteStream
import Apue.Coprocess

namespace Apue.AdderFilter

open ByteCodec FileIO
open ByteStream (store)
open Coprocess (answer answer_text maxline scanTwo sum)
open UnixSocket (cStr cStr_of_notMem zero_notMem_cStr)

/-! ### The buffer -/

/-- `char line[MAXLINE]`. -/
structure Line where
  bytes : List UInt8
  size_eq : bytes.length = maxline

/-- A buffer of zero bytes. -/
def Line.zero : Line := ⟨List.replicate maxline 0, List.length_replicate⟩

theorem Line.length_take_store (line : Line) (off : ℕ) (d : List UInt8) :
    ((store line.bytes off d).take maxline).length = maxline := by
  have := line.size_eq
  simp only [store, List.length_take, List.length_append, List.length_drop]
  omega

/-- Bytes are stored at an offset, as far as the buffer goes. -/
def Line.store (line : Line) (off : ℕ) (d : List UInt8) : Line :=
  ⟨(ByteStream.store line.bytes off d).take maxline, line.length_take_store off d⟩

theorem Line.bytes_store (line : Line) {off : ℕ} {d : List UInt8}
    (h : off + d.length ≤ maxline) :
    (line.store off d).bytes
      = line.bytes.take off ++ d ++ line.bytes.drop (off + d.length) := by
  refine List.take_of_length_le ?_
  have := line.size_eq
  simp only [ByteStream.store, List.length_append, List.length_take, List.length_drop]
  omega

/-- A zero byte ends the text. -/
theorem cStr_append_zero (text rest : List UInt8) : cStr (text ++ 0 :: rest) = cStr text := by
  induction text with
  | nil => rfl
  | cons b text ih =>
      by_cases hb : b = 0
      · subst hb
        rfl
      · have hne : (b != 0) = true := by simpa using hb
        have hcons : ∀ l, cStr (b :: l) = b :: cStr l := fun l =>
          List.takeWhile_cons_of_pos (p := (· != 0)) hne
        rw [List.cons_append, hcons, hcons, ih]

theorem cStr_eq_self_iff {text : List UInt8} : cStr text = text ↔ 0 ∉ text := by
  refine ⟨fun h => ?_, cStr_of_notMem⟩
  rw [← h]
  exact zero_notMem_cStr text

/-- The text in the buffer after a read and `line[n] = 0`. -/
theorem Line.cStr_terminated (line : Line) {d : List UInt8} (h : d.length < maxline) :
    cStr ((line.store 0 d).store d.length [0]).bytes = cStr d := by
  have hread : (line.store 0 d).bytes = d ++ line.bytes.drop (0 + d.length) :=
    line.bytes_store (by omega)
  rw [Line.bytes_store _ (by rw [List.length_singleton]; omega), hread, List.take_left,
    List.append_assoc]
  exact cStr_append_zero d _

/-- The text in the buffer after `sprintf`. -/
theorem Line.cStr_printed (line : Line) {msg : List UInt8} (h : msg.length < maxline)
    (hmsg : 0 ∉ msg) : cStr (line.store 0 (msg ++ [0])).bytes = msg := by
  have hfits : 0 + (msg ++ [0]).length ≤ maxline := by
    rw [List.length_append, List.length_singleton]
    omega
  rw [line.bytes_store hfits, List.take_zero, List.nil_append, List.append_assoc]
  exact (cStr_append_zero msg _).trans (cStr_of_notMem hmsg)

/-! ### The program -/

/-- How `main` ends. -/
inductive Exit
  /-- `exit(0)` -/
  | exited
  /-- `err_sys` -/
  | errSys (msg : String)
  /-- `line[n] = 0` behind the end of the buffer -/
  | overrun
  deriving DecidableEq, Repr

/-- One pass of the loop: what `read` returned, the index at which the zero byte is stored,
and the text that `sscanf` is given, if the program gets there. -/
structure Pass where
  bytes : List UInt8
  index : ℕ
  text : Option (List UInt8)
  deriving DecidableEq, Repr

/-- The state of the program: what is left of standard input, how the writes will go, the
buffer, what was written, and the passes made. -/
structure State where
  stdin : Source UInt8
  stdout : List Outcome
  line : Line
  out : List UInt8
  passes : List Pass

/-- `writen(STDOUT_FILENO, msg, ...)` and the error exit. -/
def State.writeMsg (s : State) (msg : List UInt8) : Option Exit × State :=
  match writen msg s.stdout with
  | (none, sent, os) =>
      (some (.errSys "call write"), { s with stdout := os, out := s.out ++ sent })
  | (some _, sent, os) => (none, { s with stdout := os, out := s.out ++ sent })

-- the value of `int1 + int2` where C leaves it undefined
variable (undef : ℤ → ℤ → BitVec 32)

/-- The body of the loop, after a read of these bytes. -/
def body (s : State) (bytes : List UInt8) : Option Exit × State :=
  let n := bytes.length
  if n < maxline then
    let line := s.line.store n [0]
    let text := cStr line.bytes
    let s := { s with line := line, passes := s.passes ++ [Pass.mk bytes n (some text)] }
    match scanTwo text with
    | some (int1, int2) =>
        let msg := intToDec (sum undef int1 int2).toInt ++ ofText "\n"
        let line := line.store 0 (msg ++ [0])
        let n := (cStr line.bytes).length
        { s with line := line }.writeMsg (line.bytes.take n)
    | none => s.writeMsg (ofText "invalid arguments\n")
  else (some .overrun, { s with passes := s.passes ++ [Pass.mk bytes n none] })

/-- The loop of `main`.  Every pass has read something, so the number of bytes still to be
read bounds the number of passes. -/
def filterLoop : ℕ → State → Option (Exit × State)
  | 0, _ => none
  | fuel + 1, s =>
      match s.stdin.read maxline with
      | (none, stdin) | (some [], stdin) => some (.exited, { s with stdin := stdin })
      | (some (b :: bs), stdin) =>
          match body undef { s with stdin := stdin, line := s.line.store 0 (b :: bs) }
              (b :: bs) with
          | (some e, s') => some (e, s')
          | (none, s') => filterLoop fuel s'

/-- `main`, with any content of the buffer. -/
def main (stdin : Source UInt8) (stdout : List Outcome) (line : Line) : Option (Exit × State) :=
  filterLoop undef (stdin.data.length + 1) ⟨stdin, stdout, line, [], []⟩

/-! ### Passes -/

variable {undef}

/-- The pass for a read of these bytes. -/
def Pass.of (bytes : List UInt8) : Pass :=
  ⟨bytes, bytes.length, if bytes.length < maxline then some (cStr bytes) else none⟩

/-- The text is that of the read: only what the zero byte cuts off is missing. -/
theorem Pass.of_ok_iff (bytes : List UInt8) :
    ((Pass.of bytes).index < maxline ∧ (Pass.of bytes).text = some (Pass.of bytes).bytes) ↔
      bytes.length < maxline ∧ 0 ∉ bytes := by
  show (bytes.length < maxline ∧ (if bytes.length < maxline then some (cStr bytes) else none)
    = some bytes) ↔ _
  refine and_congr_right fun hlt => ?_
  rw [if_pos hlt, Option.some.injEq]
  exact cStr_eq_self_iff

/-- The parts into which the reads cut standard input, until one of them returns 0 or -1. -/
def chunksLoop : ℕ → Source UInt8 → List (List UInt8)
  | 0, _ => []
  | fuel + 1, src =>
      match src.read maxline with
      | (none, _) | (some [], _) => []
      | (some (b :: bs), src') => (b :: bs) :: chunksLoop fuel src'

def chunks (src : Source UInt8) : List (List UInt8) := chunksLoop (src.data.length + 1) src

/-- **One pass.**  If the bytes leave room for the zero byte, the program writes the answer
to them, whatever the buffer held before. -/
theorem body_eq (undef : ℤ → ℤ → BitVec 32) (s : State) (d : List UInt8)
    (hlt : d.length < maxline) :
    ∃ line, body undef { s with line := s.line.store 0 d } d
      = { s with line := line, passes := s.passes ++ [Pass.of d] }.writeMsg (answer undef d) := by
  have htext := s.line.cStr_terminated hlt
  have hpass : Pass.of d = ⟨d, d.length, some (cStr d)⟩ := by rw [Pass.of, if_pos hlt]
  unfold body
  simp only [if_pos hlt, htext, hpass]
  have hanswer := answer_text undef d
  unfold answer at hanswer ⊢
  rcases hscan : scanTwo (cStr d) with _ | ⟨int1, int2⟩
  · exact ⟨_, rfl⟩
  · rw [hscan] at hanswer
    obtain ⟨-, hlen, hzero⟩ := hanswer
    generalize hline : ((s.line.store 0 d).store d.length [0]).store 0
      (intToDec (sum undef int1 int2).toInt ++ ofText "\n" ++ [0]) = line
    -- `strlen` finds the zero byte that `sprintf` stored
    have hmsg : cStr line.bytes = intToDec (sum undef int1 int2).toInt ++ ofText "\n" := by
      rw [← hline]
      exact Line.cStr_printed _ hlen hzero
    have hprefix : cStr line.bytes <+: line.bytes := List.takeWhile_prefix _
    refine ⟨line, ?_⟩
    dsimp only
    rw [hline, ← List.prefix_iff_eq_take.mp hprefix, hmsg]

/-! ### Runs -/

/-- A message is written, in part or as a whole, and an error ends the program. -/
theorem writeMsg_cases (s : State) (msg : List UInt8) :
    ∃ r os sent, s.writeMsg msg = (r, { s with stdout := os, out := s.out ++ sent }) ∧
      (r = none ∨ r = some (.errSys "call write")) ∧
      (.fail ∉ s.stdout → r = none ∧ sent = msg ∧ .fail ∉ os) := by
  rcases hwriten : writen msg s.stdout with ⟨_ | n, sent, os⟩
  · refine ⟨some (.errSys "call write"), os, sent, by rw [State.writeMsg, hwriten], .inr rfl, ?_⟩
    intro hos
    obtain ⟨os', hall, -⟩ := writen_of_reliable msg hos
    rw [hwriten] at hall
    cases (Prod.mk.inj hall).1
  · refine ⟨none, os, sent, by rw [State.writeMsg, hwriten], .inl rfl, ?_⟩
    intro hos
    obtain ⟨os', hall, hos'⟩ := writen_of_reliable msg hos
    rw [hwriten] at hall
    obtain ⟨-, hsent⟩ := Prod.mk.inj hall
    obtain ⟨rfl, rfl⟩ := Prod.mk.inj hsent
    exact ⟨rfl, rfl, hos'⟩

/-- What a run of the loop does: it makes a pass for each of the chunks `done`, and ends
behind the last one, with a write that fails, or with a chunk that fills the buffer. -/
structure Ran (undef : ℤ → ℤ → BitVec 32) (all : List (List UInt8)) (s s' : State) (e : Exit)
    (done : List (List UInt8)) : Prop where
  chunks : done <+: all
  passes : s'.passes = s.passes ++ done.map Pass.of
  exited : e = .exited → done = all
  overrun : e = .overrun → ∃ d ∈ done, ¬ d.length < maxline
  noError : .fail ∉ s.stdout → ∀ msg, e ≠ .errSys msg
  answers : .fail ∉ s.stdout → (∀ d ∈ done, d.length < maxline) →
    s'.out = s.out ++ done.flatMap (answer undef)

/-- The loop is left. -/
theorem Ran.nil (s : State) (stdin : Source UInt8) :
    Ran undef [] s { s with stdin := stdin } .exited [] where
  chunks := List.prefix_refl _
  passes := (List.append_nil _).symm
  exited _ := rfl
  overrun := nofun
  noError _ _ := nofun
  answers _ _ := (List.append_nil _).symm

/-- The chunk `d` is answered, and the loop goes on. -/
theorem Ran.cons {d : List UInt8} {all done : List (List UInt8)} {s s₁ s' : State} {e : Exit}
    (hpasses : s₁.passes = s.passes ++ [Pass.of d])
    (hwrite : .fail ∉ s.stdout → .fail ∉ s₁.stdout ∧ s₁.out = s.out ++ answer undef d)
    (h : Ran undef all s₁ s' e done) : Ran undef (d :: all) s s' e (d :: done) where
  chunks := List.cons_prefix_cons.mpr ⟨rfl, h.chunks⟩
  passes := by rw [h.passes, hpasses, List.append_assoc]; rfl
  exited he := by rw [h.exited he]
  overrun he := by
    obtain ⟨d', hd', hlen⟩ := h.overrun he
    exact ⟨d', List.mem_cons_of_mem _ hd', hlen⟩
  noError hos := h.noError (hwrite hos).1
  answers hos hlen := by
    have hrest := h.answers (hwrite hos).1 fun d' hd' => hlen d' (List.mem_cons_of_mem _ hd')
    rw [hrest, (hwrite hos).2, List.append_assoc]
    rfl

/-- **The loop ends, and its passes are those of the chunks.** -/
theorem filterLoop_ran : ∀ (fuel : ℕ) (s : State), s.stdin.data.length < fuel →
    ∃ e s' done, filterLoop undef fuel s = some (e, s') ∧
      Ran undef (chunksLoop fuel s.stdin) s s' e done := by
  intro fuel
  induction fuel with
  | zero =>
      intro s hfuel
      cases hfuel
  | succ fuel ih =>
      intro s hfuel
      rw [filterLoop, chunksLoop]
      rcases hread : s.stdin.read maxline with ⟨_ | _ | ⟨b, bs⟩, stdin⟩
      · exact ⟨_, _, [], rfl, .nil s stdin⟩
      · exact ⟨_, _, [], rfl, .nil s stdin⟩
      obtain ⟨hdata, -⟩ := Source.read_eq_some hread
      dsimp only
      generalize hd : b :: bs = d
      by_cases hlt : d.length < maxline
      · obtain ⟨line, hbody⟩ := body_eq undef { s with stdin := stdin } d hlt
        obtain ⟨r, os, sent, hmsg, hr, hok⟩ := writeMsg_cases
          { s with stdin := stdin, line := line, passes := s.passes ++ [Pass.of d] }
          (answer undef d)
        rw [hbody, hmsg]
        rcases hr with rfl | rfl
        · have hshort : stdin.data.length < fuel := by
            rw [hdata, List.length_append, List.length_cons] at hfuel
            omega
          obtain ⟨e, s', done, hloop, hran⟩ := ih
            { stdin := stdin, stdout := os, line := line, out := s.out ++ sent,
              passes := s.passes ++ [Pass.of d] } hshort
          refine ⟨e, s', d :: done, hloop, .cons rfl (fun hos => ?_) hran⟩
          obtain ⟨-, rfl, hos'⟩ := hok hos
          exact ⟨hos', rfl⟩
        · refine ⟨_, _, [d], rfl, ?_⟩
          exact
            { chunks := List.cons_prefix_cons.mpr ⟨rfl, List.nil_prefix⟩
              passes := rfl
              exited := nofun
              overrun := nofun
              noError := fun hos => by cases (hok hos).1
              answers := fun hos => by cases (hok hos).1 }
      · -- the zero byte has no room
        refine ⟨.overrun, _, [d], by rw [body, if_neg hlt], ?_⟩
        exact
          { chunks := List.cons_prefix_cons.mpr ⟨rfl, List.nil_prefix⟩
            passes := by simp [Pass.of, hlt]
            exited := nofun
            overrun := fun _ => ⟨d, by simp, hlt⟩
            noError := fun _ _ => nofun
            answers := fun _ hall => absurd (hall d (by simp)) hlt }

theorem main_ran (undef : ℤ → ℤ → BitVec 32) (src : Source UInt8)
    (stdout : List Outcome) (line : Line) :
    ∃ e s done, main undef src stdout line = some (e, s) ∧
      Ran undef (chunks src) ⟨src, stdout, line, [], []⟩ s e done :=
  filterLoop_ran _ _ (Nat.lt_succ_self _)

/-- **The filter answers every chunk**, in order, if no write fails and the zero byte always
has room. -/
theorem main_answers {src : Source UInt8} (hfits : ∀ d ∈ chunks src, d.length < maxline)
    {stdout : List Outcome} (hos : .fail ∉ stdout) (line : Line) :
    ∃ s, main undef src stdout line = some (.exited, s) ∧
      s.out = (chunks src).flatMap (answer undef) := by
  obtain ⟨e, s, done, hmain, hran⟩ := main_ran undef src stdout line
  have hdone : ∀ d ∈ done, d.length < maxline := fun d hd => hfits d (hran.chunks.subset hd)
  cases e with
  | exited => exact ⟨s, hmain, hran.exited rfl ▸ hran.answers hos hdone⟩
  | errSys msg => exact absurd rfl (hran.noError hos msg)
  | overrun =>
      obtain ⟨d, hd, hlen⟩ := hran.overrun rfl
      exact absurd (hdone d hd) hlen

/-- The buffer is used as intended: in every pass the zero byte is stored below `MAXLINE`, and
`sscanf` is given the bytes of the read, whatever the buffer held before, however the
writes go, and whatever C makes of the sums it leaves undefined. -/
def BufferOk (src : Source UInt8) : Prop :=
  ∀ undef stdout line, ∃ e s, main undef src stdout line = some (e, s) ∧
    ∀ p ∈ s.passes, p.index < maxline ∧ p.text = some p.bytes

/-- **When the buffer is large enough.**  For every standard input and every way the reads
split it: exactly if no read fills the buffer and none returns a zero byte. -/
theorem bufferOk_iff (src : Source UInt8) :
    BufferOk src ↔ ∀ d ∈ chunks src, d.length < maxline ∧ 0 ∉ d := by
  constructor
  · intro hok
    -- all writes succeed, so only a full buffer can end the run early
    obtain ⟨e, s, hmain, hpasses⟩ := hok (fun _ _ => 0) [] .zero
    obtain ⟨e', s', done, hmain', hran⟩ := main_ran (fun _ _ => 0) src [] .zero
    obtain ⟨rfl, rfl⟩ := Prod.mk.inj (Option.some.inj (hmain.symm.trans hmain'))
    have hdone : ∀ d ∈ done, d.length < maxline ∧ 0 ∉ d := by
      intro d hd
      refine (Pass.of_ok_iff d).mp (hpasses _ ?_)
      rw [hran.passes]
      exact List.mem_append_right _ (List.mem_map_of_mem hd)
    cases e with
    | exited => rwa [hran.exited rfl] at hdone
    | errSys msg => exact absurd rfl (hran.noError List.not_mem_nil msg)
    | overrun =>
        obtain ⟨d, hd, hlen⟩ := hran.overrun rfl
        exact absurd (hdone d hd).1 hlen
  · intro hchunks undef stdout line
    obtain ⟨e, s, done, hmain, hran⟩ := main_ran undef src stdout line
    refine ⟨e, s, hmain, fun p hp => ?_⟩
    rw [hran.passes] at hp
    obtain ⟨d, hd, rfl⟩ := List.mem_map.mp hp
    exact (Pass.of_ok_iff d).mpr (hchunks d (hran.chunks.subset hd))

/-- A read that fills the buffer. -/
theorem main_of_full (undef : ℤ → ℤ → BitVec 32) {d : List UInt8}
    (hd : d.length = maxline) (stdout : List Outcome) (line : Line) :
    ∃ s, main undef ⟨d, []⟩ stdout line = some (.overrun, s) ∧
      s.passes = [⟨d, maxline, none⟩] := by
  have hread : (⟨d, []⟩ : Source UInt8).read maxline = (some d, ⟨[], []⟩) := by
    rw [Source.read, List.take_of_length_le (Nat.le_of_eq hd),
      List.drop_of_length_le (Nat.le_of_eq hd)]
  obtain ⟨b, bs, rfl⟩ := List.exists_cons_of_length_pos (hd ▸ (by decide : 0 < maxline))
  have hfull : ¬ (b :: bs).length < maxline := Nat.not_lt.mpr (Nat.le_of_eq hd.symm)
  rw [main, filterLoop]
  simp only [hread, body, if_neg hfull]
  exact ⟨_, rfl, by rw [hd]; rfl⟩

/-- A run whose passes are not all as intended. -/
theorem not_bufferOk_of_main {src : Source UInt8} {e : Exit} {s : State}
    (hmain : main (fun _ _ => 0) src [] .zero = some (e, s)) {p : Pass} (hp : p ∈ s.passes)
    (hbad : ¬ (p.index < maxline ∧ p.text = some p.bytes)) : ¬ BufferOk src := by
  intro hok
  obtain ⟨e', s', hmain', hpasses⟩ := hok (fun _ _ => 0) [] .zero
  obtain ⟨-, rfl⟩ := Prod.mk.inj (Option.some.inj (hmain.symm.trans hmain'))
  exact hbad (hpasses p hp)

/-- One read fills the buffer, and the zero byte is stored behind it; and `sscanf` does not
see what follows a zero byte. -/
theorem fullRead_overruns :
    ((∃ s, main (fun _ _ => 0) ⟨List.replicate 4096 65, []⟩ [] .zero = some (.overrun, s) ∧
        s.passes = [⟨List.replicate 4096 65, 4096, none⟩]) ∧
      ¬ BufferOk ⟨List.replicate 4096 65, []⟩) ∧
    (∃ s, main (fun _ _ => 0) ⟨[49, 0, 50], []⟩ [] .zero = some (.exited, s) ∧
        s.passes = [⟨[49, 0, 50], 3, some [49]⟩]) ∧
      ¬ BufferOk ⟨[49, 0, 50], []⟩ := by
  obtain ⟨s, hfull, hpasses⟩ := main_of_full (fun _ _ => 0)
    (d := List.replicate 4096 65) List.length_replicate [] .zero
  have hrun : (main (fun _ _ => 0) ⟨[49, 0, 50], []⟩ [] .zero).map (fun r => (r.1, r.2.passes))
      = some (.exited, [⟨[49, 0, 50], 3, some [49]⟩]) := by
    decide +kernel
  obtain ⟨⟨e, s'⟩, hzero, hobs⟩ := Option.map_eq_some_iff.mp hrun
  obtain ⟨rfl, hpasses'⟩ := Prod.mk.inj hobs
  refine ⟨⟨⟨s, hfull, hpasses⟩, ?_⟩, ⟨s', hzero, hpasses'⟩, ?_⟩
  · exact not_bufferOk_of_main hfull (hpasses ▸ List.mem_singleton_self _)
      fun hok => absurd hok.1 (Nat.lt_irrefl maxline)
  · exact not_bufferOk_of_main hzero (hpasses' ▸ List.mem_singleton_self _)
      fun hok => absurd hok.2 (by decide)

end Apue.AdderFilter
