/-
Apue/FormatMessage.lean

The error messages of `lib/apue.h`: `format_message` and `do_error`, with a format
string and no arguments, as `err_msg(text)` and `err_ret(text)` call them.

`std::vformat` copies the text, in which a doubled brace stands for one brace.  Any
other brace starts or ends a replacement field, for which there is no argument: a
`format_error` is thrown, and `format_message` returns a text that says so.  A text
that is to be printed as it is may not contain a brace, and none with a NUL may go to
`syslog` (`errMsg_eq_line_iff`).
-/
import Mathlib.Data.Int.Basic
import Mathlib.Data.List.TakeWhile
import Apue.ByteCodec

namespace Apue.Messages

open ByteCodec

/-- `{` or `}`. -/
def isBrace (b : UInt8) : Bool := b == 0x7b || b == 0x7d

/-- `std::vformat(fmt, std::make_format_args())`.  `none` is a `format_error`. -/
def vformat : List UInt8 → Option (List UInt8)
  | [] => some []
  | [b] => if isBrace b then none else some [b]
  | b :: c :: fmt =>
      if isBrace b then if c = b then (vformat fmt).map (b :: ·) else none
      else (vformat (c :: fmt)).map (b :: ·)

/-- What a message depends on besides its text. -/
structure Env where
  /-- `log_to_stderr` -/
  logToStderr : Bool
  /-- `strerror` -/
  strerror : ℤ → List UInt8
  /-- `e.what()` of the `format_error` that a format string throws -/
  what : List UInt8 → List UInt8

/-- What is put before a message. -/
def Env.lead (env : Env) : List UInt8 := if env.logToStderr then ofText "Error: " else []

/-- `format_message(err_code, fmt)`. -/
def formatMessage (env : Env) (errCode : ℤ) (fmt : List UInt8) : List UInt8 :=
  match vformat fmt with
  | some msg => env.lead ++ msg ++ if 0 ≤ errCode then ofText ": " ++ env.strerror errCode else []
  | none => ofText "Formatting error: " ++ fmt ++ ofText " (" ++ env.what fmt ++ ofText ")"

/-- `do_error(msg)`: the line on standard error, or what `syslog` reads of the C string. -/
def doError (env : Env) (msg : List UInt8) : List UInt8 :=
  if env.logToStderr then msg ++ ofText "\n" else msg.takeWhile (· != 0)

/-- `err_msg(fmt)`. -/
def errMsg (env : Env) (fmt : List UInt8) : List UInt8 := doError env (formatMessage env (-1) fmt)

/-- `err_ret(fmt)`. -/
def errRet (env : Env) (errno : ℤ) (fmt : List UInt8) : List UInt8 :=
  doError env (formatMessage env errno fmt)

/-- The line that says `text`. -/
def Env.line (env : Env) (text : List UInt8) : List UInt8 :=
  if env.logToStderr then env.lead ++ text ++ ofText "\n" else text

/-- There is nothing in the text that the functions above do not copy. -/
def Env.Plain (env : Env) (text : List UInt8) : Prop :=
  (∀ b ∈ text, isBrace b = false) ∧ (env.logToStderr = false → 0 ∉ text)

/-! ### Which texts are printed as they are -/

/-- A byte that is no brace is copied. -/
theorem vformat_cons {b : UInt8} (hb : isBrace b = false) (fmt : List UInt8) :
    vformat (b :: fmt) = (vformat fmt).map (b :: ·) := by
  cases fmt <;> simp [vformat, hb]

/-- A text without braces is copied. -/
theorem vformat_of_noBrace {fmt : List UInt8} (h : ∀ b ∈ fmt, isBrace b = false) :
    vformat fmt = some fmt := by
  induction fmt with
  | nil => rfl
  | cons b fmt ih =>
      rw [vformat_cons (h b (by simp)), ih fun c hc => h c (by simp [hc])]
      rfl

/-- Each doubled brace makes the text shorter. -/
theorem length_of_vformat {fmt msg : List UInt8} (h : vformat fmt = some msg) :
    msg.length ≤ fmt.length ∧
      (msg.length = fmt.length → ∀ b ∈ fmt, isBrace b = false) := by
  induction fmt using vformat.induct generalizing msg with
  | case1 =>
      obtain rfl := Option.some.inj h
      exact ⟨le_rfl, fun _ => nofun⟩
  | case2 b hb =>
      rw [vformat, if_pos hb] at h
      cases h
  | case3 b hb =>
      rw [vformat, if_neg hb] at h
      obtain rfl := Option.some.inj h
      exact ⟨le_rfl, fun _ => by simpa using hb⟩
  | case4 b fmt hb ih =>
      rw [vformat, if_pos hb, if_pos rfl] at h
      obtain ⟨msg, hmsg, rfl⟩ := Option.map_eq_some_iff.mp h
      have hle := (ih hmsg).1
      simp only [List.length_cons]
      exact ⟨by omega, fun heq => by omega⟩
  | case5 b c fmt hb hne =>
      rw [vformat, if_pos hb, if_neg hne] at h
      cases h
  | case6 b c fmt hb ih =>
      rw [vformat, if_neg hb] at h
      obtain ⟨msg, hmsg, rfl⟩ := Option.map_eq_some_iff.mp h
      obtain ⟨hle, hnone⟩ := ih hmsg
      simp only [List.length_cons] at hle hnone ⊢
      refine ⟨by omega, fun heq => List.forall_mem_cons.mpr ⟨by simpa using hb, ?_⟩⟩
      exact hnone (by omega)

/-- A message that `vformat` accepts gives its line, cut short for `syslog` at a NUL. -/
theorem errMsg_of_some {env : Env} {fmt msg : List UInt8} (h : vformat fmt = some msg) :
    errMsg env fmt = env.line (if env.logToStderr then msg else msg.takeWhile (· != 0)) := by
  cases hlog : env.logToStderr <;>
    simp [errMsg, doError, formatMessage, Env.line, Env.lead, h, hlog]

/-- The message of a `format_error` is longer than the text. -/
theorem length_errMsg_of_none {env : Env} {fmt : List UInt8} (h : vformat fmt = none)
    (hnul : env.logToStderr = false → 0 ∉ fmt) :
    (env.line fmt).length < (errMsg env fmt).length := by
  have hmore : (ofText "Formatting error: ").length = 18 := by decide +kernel
  rw [errMsg, formatMessage, h]
  cases hlog : env.logToStderr with
  | true =>
      have hlead : (ofText "Error: ").length = 7 := by decide +kernel
      simp only [doError, Env.line, Env.lead, hlog, if_true, List.length_append]
      omega
  | false =>
      have hcopied : ∀ b ∈ ofText "Formatting error: " ++ fmt, (b != 0) = true := by
        have htext : ∀ b ∈ ofText "Formatting error: ", (b != 0) = true := by decide +kernel
        intro b hb
        rcases List.mem_append.mp hb with hb | hb
        · exact htext b hb
        · exact bne_iff_ne.mpr fun hz => hnul hlog (hz ▸ hb)
      simp only [doError, Env.line, hlog, if_false, Bool.false_eq_true, List.append_assoc]
      rw [← List.append_assoc (ofText "Formatting error: "), List.takeWhile_append_of_pos hcopied,
        List.length_append, List.length_append]
      omega

/-- **`err_msg` prints a text as it is exactly if it has no brace**, and no NUL if it
goes to `syslog`. -/
theorem errMsg_eq_line_iff (env : Env) (fmt : List UInt8) :
    errMsg env fmt = env.line fmt ↔ env.Plain fmt := by
  constructor
  · intro heq
    have hnul : env.logToStderr = false → 0 ∉ fmt := by
      intro hlog hmem
      simp only [errMsg, doError, Env.line, hlog, Bool.false_eq_true, if_false] at heq
      rw [← heq] at hmem
      simpa using List.mem_takeWhile_imp hmem
    refine ⟨?_, hnul⟩
    cases hv : vformat fmt with
    | none => exact absurd (congrArg List.length heq) (length_errMsg_of_none hv hnul).ne'
    | some msg =>
        obtain ⟨hle, hplain⟩ := length_of_vformat hv
        refine hplain (Nat.le_antisymm hle ?_)
        rw [errMsg_of_some hv] at heq
        have hlen := congrArg List.length heq
        have hcut := (List.takeWhile_prefix (l := msg) (· != 0)).length_le
        cases hlog : env.logToStderr <;>
          simp only [Env.line, hlog, if_true, if_false, Bool.false_eq_true,
            List.length_append] at hlen <;>
          omega
  · rintro ⟨hbrace, hnul⟩
    rw [errMsg_of_some (vformat_of_noBrace hbrace)]
    cases hlog : env.logToStderr with
    | true => rfl
    | false =>
        have hcopied : ∀ b ∈ fmt, (b != 0) = true := fun b hb =>
          bne_iff_ne.mpr fun hz => hnul hlog (hz ▸ hb)
        rw [if_neg (by simp), List.takeWhile_eq_self_iff.mpr hcopied]

end Apue.Messages
