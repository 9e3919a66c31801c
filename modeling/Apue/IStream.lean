/-
Apue/IStream.lean

Formatted input from a string, as `std::istringstream` does it in the classic
locale: extraction of an `int` and of a word.

The stream remembers the rest of its bytes and the two bits `eofbit` and
`failbit`.  Every extraction starts with a sentry: a stream that is not good
fails at once, and leading white space is skipped.  An extraction that looks past
the last byte sets `eofbit`, so that the next one fails.

What an extraction accepts is described by how the text splits
(`extractInt_eq_some_iff`, `extractWord_eq_some_iff`): blanks, the token, and a rest
that could not have been part of it.
-/
import Mathlib.Algebra.Group.Int.Defs
import Mathlib.Data.List.TakeWhile
import Apue.ByteCodec

open ByteCodec

/-- An input string stream. -/
structure IStream where
  rest : List UInt8
  eofbit : Bool
  failbit : Bool
  deriving DecidableEq

namespace IStream

/-- `std::stringstream ss(str)`. -/
def ofBytes (str : List UInt8) : IStream := ⟨str, false, false⟩

/-- White space of the classic locale. -/
def isSpace (b : UInt8) : Bool := b == 32 || (9 ≤ b && b ≤ 13)

/-- The sentry of an extraction: whether it may go on. -/
def sentry (s : IStream) : Bool × IStream :=
  if s.eofbit || s.failbit then (false, { s with failbit := true })
  else
    match s.rest.dropWhile isSpace with
    | [] => (false, ⟨[], true, true⟩)
    | b :: bs => (true, { s with rest := b :: bs })

/-- An optional sign, and what follows it. -/
def takeSign : List UInt8 → Bool × List UInt8
  | [] => (false, [])
  | b :: bs => if b = 45 then (true, bs) else if b = 43 then (false, bs) else (false, b :: bs)

/-- The value with this sign. -/
def signed (neg : Bool) (v : ℕ) : ℤ := if neg then -v else v

/-- The values of an `int`. -/
def InRange (v : ℤ) : Prop := -2 ^ 31 ≤ v ∧ v < 2 ^ 31

instance (v : ℤ) : Decidable (InRange v) := inferInstanceAs (Decidable (_ ∧ _))

/-- `s >> i` for an `int i`: `none` if the extraction fails, which it does without
digits and outside the range of `int`. -/
def extractInt (s : IStream) : Option ℤ × IStream :=
  match s.sentry with
  | (false, s') => (none, s')
  | (true, s') =>
      let (neg, bs) := takeSign s'.rest
      let ds := bs.takeWhile isDigit
      let rest := bs.dropWhile isDigit
      let v := signed neg (ofDec ds)
      if ds ≠ [] ∧ InRange v then (some v, ⟨rest, rest.isEmpty, false⟩)
      else (none, ⟨rest, rest.isEmpty, true⟩)

/-- `s >> w` for a `std::string w`. -/
def extractWord (s : IStream) : Option (List UInt8) × IStream :=
  match s.sentry with
  | (false, s') => (none, s')
  | (true, s') =>
      let rest := s'.rest.dropWhile (!isSpace ·)
      (some (s'.rest.takeWhile (!isSpace ·)), ⟨rest, rest.isEmpty, false⟩)

/-! ### Longest runs -/

/-- `a` is the longest run of `p` at the start of `a ++ b`. -/
structure LongestRun {α : Type*} (p : α → Bool) (a b : List α) : Prop where
  all : ∀ x ∈ a, p x = true
  stop : ∀ x, b.head? = some x → p x = false

theorem takeWhile_dropWhile_iff {α : Type*} {p : α → Bool} {l a b : List α} :
    l.takeWhile p = a ∧ l.dropWhile p = b ↔ l = a ++ b ∧ LongestRun p a b := by
  constructor
  · rintro ⟨rfl, rfl⟩
    refine ⟨List.takeWhile_append_dropWhile.symm, fun x hx => List.mem_takeWhile_imp hx, ?_⟩
    intro x hx
    have hstop := List.head?_dropWhile_not p l
    rw [hx] at hstop
    exact hstop
  · rintro ⟨rfl, hall, hstop⟩
    rw [List.takeWhile_append_of_pos hall, List.dropWhile_append_of_pos hall]
    cases b with
    | nil => simp
    | cons x b => simp [hstop x rfl]

/-! ### What an extraction accepts -/

/-- No bit is set. -/
def Good (s : IStream) : Prop := s.eofbit = false ∧ s.failbit = false

/-- White space only. -/
def Blank (ws : List UInt8) : Prop := ∀ b ∈ ws, isSpace b = true

/-- An optional sign and at least one digit. -/
inductive Numeral : List UInt8 → ℤ → Prop
  | plain {ds} : ds ≠ [] → (∀ d ∈ ds, isDigit d = true) → Numeral ds (ofDec ds)
  | plus {ds} : ds ≠ [] → (∀ d ∈ ds, isDigit d = true) → Numeral (43 :: ds) (ofDec ds)
  | minus {ds} : ds ≠ [] → (∀ d ∈ ds, isDigit d = true) → Numeral (45 :: ds) (-ofDec ds)

/-- The extraction stops at the end or at a byte that `p` rejects. -/
def StopsAt (p : UInt8 → Bool) (tail : List UInt8) : Prop :=
  ∀ b, tail.head? = some b → p b = false

theorem sentry_eq_true_iff {s s' : IStream} (hs : s.Good) :
    s.sentry = (true, s') ↔
      ∃ ws rest, s.rest = ws ++ rest ∧ Blank ws ∧ rest ≠ [] ∧ StopsAt isSpace rest ∧
        s' = ⟨rest, false, false⟩ := by
  obtain ⟨rest₀, _, _⟩ := s
  obtain ⟨rfl, rfl⟩ := hs
  show (match rest₀.dropWhile isSpace with | [] => _ | b :: bs => _) = _ ↔ _
  constructor
  · intro h
    obtain ⟨heq, hrun⟩ := (takeWhile_dropWhile_iff (l := rest₀) (p := isSpace)).mp ⟨rfl, rfl⟩
    cases hd : rest₀.dropWhile isSpace with
    | nil => rw [hd] at h; cases h
    | cons b bs =>
        rw [hd] at h heq hrun
        obtain rfl := (Prod.mk.inj h).2
        exact ⟨_, _, heq, hrun.all, by simp, hrun.stop, rfl⟩
  · rintro ⟨ws, rest, heq, hws, hne, hstop, rfl⟩
    rw [(takeWhile_dropWhile_iff.mpr ⟨heq, hws, hstop⟩).2]
    cases rest with
    | nil => exact absurd rfl hne
    | cons b bs => rfl

theorem isSpace_eq_false_of_isDigit {b : UInt8} (h : isDigit b = true) : isSpace b = false := by
  have hb := isDigit_iff.mp h
  have hne : b ≠ 32 := by
    rintro rfl
    simp at hb
  have hgt : ¬ b ≤ 13 := by
    rw [UInt8.le_iff_toNat_le]
    simp
    omega
  simp [isSpace, hne, hgt]

theorem takeSign_of_isDigit {b : UInt8} (h : isDigit b = true) (bs : List UInt8) :
    takeSign (b :: bs) = (false, b :: bs) := by
  have hb := isDigit_iff.mp h
  have hne : b ≠ 45 ∧ b ≠ 43 := by
    constructor <;> (rintro rfl; simp at hb)
  rw [takeSign, if_neg hne.1, if_neg hne.2]

/-- Reading a sign and then digits is reading a numeral. -/
theorem takeSign_takeWhile_iff {l tail : List UInt8} {v : ℤ} :
    ((takeSign l).2.takeWhile isDigit ≠ [] ∧
      v = signed (takeSign l).1 (ofDec ((takeSign l).2.takeWhile isDigit)) ∧
      tail = (takeSign l).2.dropWhile isDigit) ↔
    ∃ num, l = num ++ tail ∧ Numeral num v ∧ StopsAt isDigit tail := by
  constructor
  · rintro ⟨hne, rfl, rfl⟩
    obtain ⟨heq, hrun⟩ :=
      (takeWhile_dropWhile_iff (l := (takeSign l).2) (p := isDigit)).mp ⟨rfl, rfl⟩
    cases l with
    | nil => exact absurd rfl hne
    | cons b bs =>
        by_cases hminus : b = 45
        · have hsign : takeSign (b :: bs) = (true, bs) := by rw [takeSign, if_pos hminus]
          rw [hsign] at hne heq hrun ⊢
          exact ⟨45 :: _, by rw [hminus]; exact congrArg _ heq, .minus hne hrun.all, hrun.stop⟩
        · by_cases hplus : b = 43
          · have hsign : takeSign (b :: bs) = (false, bs) := by
              rw [takeSign, if_neg hminus, if_pos hplus]
            rw [hsign] at hne heq hrun ⊢
            exact ⟨43 :: _, by rw [hplus]; exact congrArg _ heq, .plus hne hrun.all, hrun.stop⟩
          · have hsign : takeSign (b :: bs) = (false, b :: bs) := by
              rw [takeSign, if_neg hminus, if_neg hplus]
            rw [hsign] at hne heq hrun ⊢
            exact ⟨_, heq, .plain hne hrun.all, hrun.stop⟩
  · rintro ⟨num, rfl, hnum, hstop⟩
    -- in each case the digits are the longest run after the sign
    cases hnum with
    | plain hne hds =>
        have hsign : takeSign (num ++ tail) = (false, num ++ tail) := by
          cases num with
          | nil => exact absurd rfl hne
          | cons b bs => exact takeSign_of_isDigit (hds b (by simp)) _
        obtain ⟨h₁, h₂⟩ := takeWhile_dropWhile_iff.mpr ⟨rfl, hds, hstop⟩
        rw [hsign]
        exact ⟨by rw [h₁]; exact hne, by rw [h₁]; rfl, h₂.symm⟩
    | @plus ds hne hds =>
        obtain ⟨h₁, h₂⟩ := takeWhile_dropWhile_iff.mpr ⟨rfl, hds, hstop⟩
        have hsign : takeSign (43 :: ds ++ tail) = (false, ds ++ tail) := rfl
        rw [hsign]
        exact ⟨by rw [h₁]; exact hne, by rw [h₁]; rfl, h₂.symm⟩
    | @minus ds hne hds =>
        obtain ⟨h₁, h₂⟩ := takeWhile_dropWhile_iff.mpr ⟨rfl, hds, hstop⟩
        have hsign : takeSign (45 :: ds ++ tail) = (true, ds ++ tail) := rfl
        rw [hsign]
        exact ⟨by rw [h₁]; exact hne, by rw [h₁]; rfl, h₂.symm⟩

theorem Numeral.ne_nil {num : List UInt8} {v : ℤ} (h : Numeral num v) : num ≠ [] := by
  cases h with
  | plain hne _ => exact hne
  | plus | minus => simp

theorem Numeral.stopsAt {num : List UInt8} {v : ℤ} (h : Numeral num v) (tail : List UInt8) :
    StopsAt isSpace (num ++ tail) := by
  intro b hb
  cases h with
  | plain hne hds =>
      cases num with
      | nil => exact absurd rfl hne
      | cons d ds =>
          obtain rfl : d = b := by simpa using hb
          exact isSpace_eq_false_of_isDigit (hds d (by simp))
  | plus =>
      obtain rfl : 43 = b := by simpa using hb
      rfl
  | minus =>
      obtain rfl : 45 = b := by simpa using hb
      rfl

/-- **What the extraction of an `int` accepts.** -/
theorem extractInt_eq_some_iff {s s' : IStream} {v : ℤ} (hs : s.Good) :
    s.extractInt = (some v, s') ↔
      ∃ ws num tail, s.rest = ws ++ num ++ tail ∧ Blank ws ∧ Numeral num v ∧ InRange v ∧
        StopsAt isDigit tail ∧ s' = ⟨tail, tail.isEmpty, false⟩ := by
  constructor
  · intro h
    unfold extractInt at h
    rcases hsent : s.sentry with ⟨_ | _, s₁⟩ <;> rw [hsent] at h
    · cases h
    · obtain ⟨ws, rest, heq, hws, -, -, rfl⟩ := (sentry_eq_true_iff hs).mp hsent
      simp only at h
      split at h
      case isFalse => cases h
      case isTrue hcond =>
          obtain ⟨hv, rfl⟩ := Prod.mk.inj h
          obtain rfl := Option.some.inj hv
          obtain ⟨num, hsplit, hnum, hstop⟩ :=
            takeSign_takeWhile_iff.mp ⟨hcond.1, rfl, rfl⟩
          refine ⟨ws, num, _, ?_, hws, hnum, hcond.2, hstop, rfl⟩
          rw [heq, List.append_assoc, ← hsplit]
  · rintro ⟨ws, num, tail, heq, hws, hnum, hrange, hstop, rfl⟩
    have hsent : s.sentry = (true, ⟨num ++ tail, false, false⟩) :=
      (sentry_eq_true_iff hs).mpr ⟨ws, num ++ tail, by rw [heq, List.append_assoc], hws,
        by simp [hnum.ne_nil], hnum.stopsAt tail, rfl⟩
    obtain ⟨hne, rfl, htail⟩ := takeSign_takeWhile_iff.mpr ⟨num, rfl, hnum, hstop⟩
    unfold extractInt
    rw [hsent]
    simp only
    rw [if_pos ⟨hne, hrange⟩, ← htail]

/-- **What the extraction of a word accepts.** -/
theorem extractWord_eq_some_iff {s s' : IStream} {w : List UInt8} (hs : s.Good) :
    s.extractWord = (some w, s') ↔
      ∃ ws tail, s.rest = ws ++ w ++ tail ∧ Blank ws ∧ w ≠ [] ∧
        LongestRun (!isSpace ·) w tail ∧ s' = ⟨tail, tail.isEmpty, false⟩ := by
  constructor
  · intro h
    unfold extractWord at h
    rcases hsent : s.sentry with ⟨_ | _, s₁⟩ <;> rw [hsent] at h
    · cases h
    · obtain ⟨ws, rest, heq, hws, hne, hstart, rfl⟩ := (sentry_eq_true_iff hs).mp hsent
      obtain ⟨hw, rfl⟩ := Prod.mk.inj h
      obtain rfl := Option.some.inj hw
      obtain ⟨hsplit, hrun⟩ :=
        (takeWhile_dropWhile_iff (l := rest) (p := (!isSpace ·))).mp ⟨rfl, rfl⟩
      refine ⟨ws, _, ?_, hws, ?_, hrun, rfl⟩
      · rw [heq, List.append_assoc, ← hsplit]
      · cases rest with
        | nil => exact absurd rfl hne
        | cons b bs => simp [hstart b rfl]
  · rintro ⟨ws, tail, heq, hws, hne, hrun, rfl⟩
    have hsent : s.sentry = (true, ⟨w ++ tail, false, false⟩) := by
      refine (sentry_eq_true_iff hs).mpr ⟨ws, w ++ tail, by rw [heq, List.append_assoc], hws,
        by simp [hne], fun b hb => ?_, rfl⟩
      cases w with
      | nil => exact absurd rfl hne
      | cons c w =>
          obtain rfl : c = b := by simpa using hb
          simpa using hrun.all c (by simp)
    obtain ⟨h₁, h₂⟩ := takeWhile_dropWhile_iff.mpr ⟨rfl, hrun⟩
    unfold extractWord
    rw [hsent]
    simp only [h₁, h₂]

/-! ### Numbers in a text -/

/-- An `int` can be extracted from the text: blanks, a numeral in the range of `int`, and a
rest that does not go on with digits. -/
def IntAt (text : List UInt8) (v : ℤ) : Prop :=
  ∃ ws num tail, text = ws ++ num ++ tail ∧ Blank ws ∧ Numeral num v ∧ InRange v ∧
    StopsAt isDigit tail

theorem extractInt_ofBytes_iff {text : List UInt8} {v : ℤ} :
    (∃ s, (ofBytes text).extractInt = (some v, s)) ↔ IntAt text v := by
  constructor
  · rintro ⟨s, h⟩
    obtain ⟨ws, num, tail, heq, hws, hnum, hrange, hstop, -⟩ :=
      (extractInt_eq_some_iff ⟨rfl, rfl⟩).mp h
    exact ⟨ws, num, tail, heq, hws, hnum, hrange, hstop⟩
  · rintro ⟨ws, num, tail, heq, hws, hnum, hrange, hstop⟩
    exact ⟨_, (extractInt_eq_some_iff ⟨rfl, rfl⟩).mpr
      ⟨ws, num, tail, heq, hws, hnum, hrange, hstop, rfl⟩⟩

theorem IntAt.ne_nil {text : List UInt8} {v : ℤ} (h : IntAt text v) : text ≠ [] := by
  obtain ⟨ws, num, tail, rfl, -, hnum, -⟩ := h
  simp [hnum.ne_nil]

theorem IntAt.unique {text : List UInt8} {v v' : ℤ} (h : IntAt text v) (h' : IntAt text v') :
    v = v' := by
  obtain ⟨s, hs⟩ := extractInt_ofBytes_iff.mpr h
  obtain ⟨s', hs'⟩ := extractInt_ofBytes_iff.mpr h'
  exact Option.some.inj (Prod.mk.inj (hs.symm.trans hs')).1

/-- White space alone holds no number. -/
theorem Blank.not_intAt {text : List UInt8} (h : Blank text) (v : ℤ) : ¬IntAt text v := by
  rintro ⟨ws, num, tail, rfl, -, hnum, -⟩
  obtain ⟨b, bs, rfl⟩ := List.exists_cons_of_ne_nil hnum.ne_nil
  have hspace := h b (by simp)
  rw [hnum.stopsAt tail b rfl] at hspace
  cases hspace

/-- There is no white space in a numeral. -/
theorem Numeral.not_space {num : List UInt8} {v : ℤ} (h : Numeral num v) :
    ∀ b ∈ num, isSpace b = false := by
  intro b hb
  cases h with
  | plain _ hds => exact isSpace_eq_false_of_isDigit (hds b hb)
  | plus _ hds | minus _ hds =>
      rcases List.mem_cons.mp hb with rfl | hb
      · rfl
      · exact isSpace_eq_false_of_isDigit (hds b hb)

/-- Leading blanks are skipped. -/
theorem intAt_blank_append {ws text : List UInt8} (hws : Blank ws) {v : ℤ} (h : IntAt text v) :
    IntAt (ws ++ text) v := by
  obtain ⟨ws', num, tail, rfl, hws', hrest⟩ := h
  refine ⟨ws ++ ws', num, tail, by simp, ?_, hrest⟩
  intro b hb
  rcases List.mem_append.mp hb with hb | hb
  · exact hws b hb
  · exact hws' b hb

/-- A number in a text that is not blank ends before the next white space after the text. -/
theorem intAt_append_space_iff {text rest : List UInt8} {c : UInt8} (hc : isSpace c = true)
    (htext : ¬Blank text) {v : ℤ} : IntAt (text ++ c :: rest) v ↔ IntAt text v := by
  constructor
  · rintro ⟨ws, num, tail, heq, hws, hnum, hrange, hstop⟩
    rcases List.append_eq_append_iff.mp heq with ⟨e, he, htail⟩ | ⟨e, rfl, he⟩
    · -- the white space would lie in the blanks or in the numeral
      cases e with
      | nil =>
          rw [List.append_nil] at he
          exact ⟨ws, num, [], by rw [List.append_nil, he], hws, hnum, hrange, nofun⟩
      | cons b e =>
          obtain rfl : c = b := (List.cons.inj htail).1
          rcases List.append_eq_append_iff.mp he with ⟨e', rfl, he'⟩ | ⟨e', rfl, he'⟩
          · have hmem : c ∈ num := by
              rw [he']
              simp
            rw [hnum.not_space c hmem] at hc
            cases hc
          · exact absurd (fun b hb => hws b (List.mem_append_left _ hb)) htext
    · refine ⟨ws, num, e, rfl, hws, hnum, hrange, fun b hb => hstop b ?_⟩
      rw [he]
      cases e with
      | nil => cases hb
      | cons b' e => exact hb
  · rintro ⟨ws, num, tail, rfl, hws, hnum, hrange, hstop⟩
    refine ⟨ws, num, tail ++ c :: rest, by simp, hws, hnum, hrange, fun b hb => ?_⟩
    cases tail with
    | nil =>
        obtain rfl : c = b := by simpa using hb
        by_contra hdigit
        rw [isSpace_eq_false_of_isDigit (by simpa using hdigit)] at hc
        cases hc
    | cons b' tail => exact hstop b (by simpa using hb)

theorem numeral_intToDec (v : ℤ) : Numeral (intToDec v) v := by
  have hdigits : ∀ d ∈ toDec v.natAbs, isDigit d = true := fun d hd => isDigit_of_mem_toDec hd
  have hval := ofDec_toDec v.natAbs
  rw [intToDec]
  split
  case isTrue hneg =>
      have h := Numeral.minus (toDec_ne_nil v.natAbs) hdigits
      have hv : -(v.natAbs : ℤ) = v := by omega
      rwa [hval, hv] at h
  case isFalse hneg =>
      have h := Numeral.plain (toDec_ne_nil v.natAbs) hdigits
      have hv : (v.natAbs : ℤ) = v := by omega
      rwa [hval, hv] at h

/-- On a stream that is not good an extraction fails. -/
theorem sentry_of_not_good {s : IStream} (hs : ¬s.Good) :
    s.sentry = (false, { s with failbit := true }) := by
  unfold sentry
  rw [if_pos]
  by_contra hcontra
  exact hs (by simpa [Good] using hcontra)

/-- The extraction of an `int` from what an earlier extraction has left. -/
theorem extractInt_rest_iff {rest : List UInt8} {v : ℤ} :
    (∃ s, (IStream.mk rest rest.isEmpty false).extractInt = (some v, s)) ↔ IntAt rest v := by
  rw [← extractInt_ofBytes_iff]
  cases rest with
  | nil => exact ⟨nofun, nofun⟩
  | cons b rest => rfl

/-! ### All words -/

theorem good_of_extractWord {s s' : IStream} {w : List UInt8}
    (h : s.extractWord = (some w, s')) : s.Good := by
  by_contra hbad
  rw [extractWord, sentry_of_not_good hbad] at h
  cases h

theorem length_extractWord_lt {s s' : IStream} {w : List UInt8}
    (h : s.extractWord = (some w, s')) : s'.rest.length < s.rest.length := by
  obtain ⟨ws, tail, hrest, -, hne, -, rfl⟩ :=
    (extractWord_eq_some_iff (good_of_extractWord h)).mp h
  have hpos := List.length_pos_iff.mpr hne
  rw [hrest, List.length_append, List.length_append]
  dsimp only
  omega

/-- An extraction without a word has found blanks only. -/
theorem blank_of_extractWord {s s' : IStream} (hs : s.Good) (h : s.extractWord = (none, s')) :
    Blank s.rest := by
  obtain ⟨rest, _, _⟩ := s
  obtain ⟨rfl, rfl⟩ := hs
  obtain ⟨heq, hrun⟩ := (takeWhile_dropWhile_iff (l := rest) (p := isSpace)).mp ⟨rfl, rfl⟩
  cases hd : rest.dropWhile isSpace with
  | nil =>
      rw [hd, List.append_nil] at heq
      exact heq ▸ hrun.all
  | cons b bs =>
      have hsent : (IStream.mk rest false false).sentry = (true, ⟨b :: bs, false, false⟩) := by
        show (match rest.dropWhile isSpace with | [] => _ | b :: bs => _) = _
        rw [hd]
      rw [extractWord, hsent] at h
      cases h

/-- `while (s >> w) ws.push_back(w);` -/
def words (s : IStream) : List (List UInt8) :=
  match _h : s.extractWord with
  | (some w, s') => w :: words s'
  | (none, _) => []
termination_by s.rest.length
decreasing_by exact length_extractWord_lt _h

/-- The text is these words, with blanks between them and perhaps around them. -/
inductive Splits : List UInt8 → List (List UInt8) → Prop
  | blank {ws : List UInt8} : Blank ws → Splits ws []
  | word {ws w rest : List UInt8} {words : List (List UInt8)} : Blank ws → w ≠ [] →
      LongestRun (!isSpace ·) w rest → Splits rest words → Splits (ws ++ w ++ rest) (w :: words)

/-- What an extraction leaves is good, or it is the end of the text. -/
theorem good_or_nil (tail : List UInt8) :
    (IStream.mk tail tail.isEmpty false).Good ∨ (IStream.mk tail tail.isEmpty false).rest = [] := by
  cases tail with
  | nil => exact .inr rfl
  | cons b bs => exact .inl ⟨rfl, rfl⟩

theorem splits_words {s : IStream} (hs : s.Good ∨ s.rest = []) : Splits s.rest s.words := by
  fun_induction words s with
  | case1 s w s' h ih =>
      obtain ⟨ws, tail, hrest, hws, hne, hrun, rfl⟩ :=
        (extractWord_eq_some_iff (good_of_extractWord h)).mp h
      rw [hrest]
      exact .word hws hne hrun (ih (good_or_nil tail))
  | case2 s s' h =>
      rcases hs with hgood | hnil
      · exact .blank (blank_of_extractWord hgood h)
      · rw [hnil]
        exact .blank nofun

/-- There is one way only to split a text. -/
theorem words_of_splits {text : List UInt8} {ws : List (List UInt8)} (h : Splits text ws)
    {s : IStream} (hrest : s.rest = text) (hs : s.Good ∨ s.rest = []) : s.words = ws := by
  induction h generalizing s with
  | blank hblank =>
      rw [words]
      split
      · next w s' h =>
        -- a word has a byte that is not blank
        obtain ⟨ws', tail, hsplit, -, hne, hrun, -⟩ :=
          (extractWord_eq_some_iff (good_of_extractWord h)).mp h
        obtain ⟨b, bs, rfl⟩ := List.exists_cons_of_ne_nil hne
        have hspace := hblank b (by rw [← hrest, hsplit]; simp)
        have hword := hrun.all b (by simp)
        simp [hspace] at hword
      · rfl
  | @word ws w rest words hws hne hrun _ ih =>
      have hgood : s.Good := by
        refine hs.resolve_right fun hnil => hne ?_
        rw [hnil] at hrest
        exact (List.append_eq_nil_iff.mp (List.append_eq_nil_iff.mp hrest.symm).1).2
      have hextract := (extractWord_eq_some_iff hgood).mpr ⟨ws, rest, hrest, hws, hne, hrun, rfl⟩
      rw [IStream.words]
      split
      · next w' s' h =>
        rw [hextract] at h
        cases h
        rw [ih rfl (good_or_nil rest)]
      · next s' h =>
        rw [hextract] at h
        cases h

/-- **The words of a text.** -/
theorem words_eq_iff {text : List UInt8} {ws : List (List UInt8)} :
    (ofBytes text).words = ws ↔ Splits text ws := by
  have hgood : (ofBytes text).Good := ⟨rfl, rfl⟩
  constructor
  · rintro rfl
    exact splits_words (.inl hgood)
  · intro h
    exact words_of_splits h rfl (.inl hgood)

end IStream
