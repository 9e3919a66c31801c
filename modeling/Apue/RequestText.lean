/-
Apue/RequestText.lean

What the server makes of the text that `unix_socket_send_request` writes.

The text is the opcode, the path and the mode with a space between them, without
quotes, a length or a terminator.  The server splits what one `read` returns at white
space again.  So a path without white space comes back as it was sent
(`sendRequest_roundTrip`), a path with white space may be taken for another path
(`sendRequest_faithful_iff`), and a text that was cut may be taken for a request with
another mode (`read_faithful_iff`).

`Faithful` is what a client may expect of the text it has sent: the server opens what was
asked for, or replies with an error.
-/
import Apue.OpenRequest

namespace Apue.UnixSocket

open ByteCodec FileIO IStream

/-! ### Faithful answers -/

section Faithful

variable (φ : Type*)

/-- What the server goes on with when its `open` has gone this way. -/
def opened {φ : Type*} (fds : FdTable φ) : Except Errno φ → ℤ × StatusMsg × FdTable φ
  | .ok f => (fds.lowest, {}, fds.insert f)
  | .error e => (-1, { code := e.1 }, fds)

/-- Whatever `open` may do, the request is answered as `open(name, flags)` goes. -/
def OpensExactly (request name : List UInt8) (flags : BitVec 32) : Prop :=
  ∀ (opens : Opens φ) (pad : BitVec 32) (fds : FdTable φ),
    processRequest opens pad fds request = replyAndClose pad (opened fds (opens name flags))

/-- The request is answered with an error, whatever `open` would do. -/
def Refuses (request : List UInt8) : Prop :=
  ∃ status : StatusMsg, status.hasError = true ∧
    ∀ (opens : Opens φ) (pad : BitVec 32) (fds : FdTable φ),
      processRequest opens pad fds request = ((sendFd fds pad (-1) (some status)).toList, fds)

/-- The server opens exactly `name` with `flags`, or replies with an error. -/
def Faithful (request name : List UInt8) (flags : BitVec 32) : Prop :=
  OpensExactly φ request name flags ∨ Refuses φ request

variable {φ}

theorem processRequest_eq_opened {request path : List UInt8} {mode : ℤ}
    (h : IsOpenRequest request path mode) (opens : Opens φ) (pad : BitVec 32) (fds : FdTable φ) :
    processRequest opens pad fds request =
      replyAndClose pad (opened fds (opens (cStr path) (BitVec.ofInt 32 mode))) := by
  rw [processRequest_of_isOpenRequest h, openTarget]
  cases opens (cStr path) (BitVec.ofInt 32 mode) <;> rfl

/-- Two values of `errno`, to tell two calls of `open` apart. -/
theorem reply_errno_ne (fds : FdTable φ) :
    replyAndClose 0 (opened fds (.error ⟨1, by decide⟩)) ≠
      replyAndClose 0 (opened fds (.error ⟨2, by decide⟩)) := by
  intro h
  have hbytes := congrArg (fun r => r.1.map fun m => m.map Prod.fst) h
  have h₁ : (replyAndClose 0 (opened fds (.error ⟨1, by decide⟩))).1.map
      (fun m => m.map Prod.fst) = [(WireHeader.mk 1 0).bytes 0] := rfl
  have h₂ : (replyAndClose 0 (opened fds (.error ⟨2, by decide⟩))).1.map
      (fun m => m.map Prod.fst) = [(WireHeader.mk 2 0).bytes 0] := rfl
  simp only [h₁, h₂] at hbytes
  revert hbytes
  decide

/-- An answer is faithful if the only thing the text can ask for is what was meant. -/
theorem faithful_iff {request name : List UInt8} {flags : BitVec 32} :
    Faithful φ request name flags ↔ ∀ path mode, IsOpenRequest request path mode →
      cStr path = name ∧ BitVec.ofInt 32 mode = flags := by
  constructor
  · rintro (hopen | ⟨status, -, hstatus⟩) path mode hreq
    · -- an `open` that fails in one way for the name and in another way for all others
      by_contra hne
      have h := hopen (fun p f => if p = name ∧ f = flags then .error ⟨1, by decide⟩
        else .error ⟨2, by decide⟩) 0 ⟨[]⟩
      rw [processRequest_eq_opened hreq, if_neg hne, if_pos ⟨rfl, rfl⟩] at h
      exact reply_errno_ne _ h.symm
    · have h₁ := hstatus (fun _ _ => .error ⟨1, by decide⟩) 0 ⟨[]⟩
      have h₂ := hstatus (fun _ _ => .error ⟨2, by decide⟩) 0 ⟨[]⟩
      rw [processRequest_eq_opened hreq] at h₁ h₂
      exact absurd (h₁.trans h₂.symm) (reply_errno_ne _)
  · intro h
    by_cases hreq : ∃ path mode, IsOpenRequest request path mode
    · obtain ⟨path, mode, hreq⟩ := hreq
      obtain ⟨rfl, rfl⟩ := h path mode hreq
      exact .inl fun opens pad fds => processRequest_eq_opened hreq opens pad fds
    · exact .inr (exists_error_of_not hreq)

end Faithful

/-! ### Taking a request text apart -/

/-- After the opcode come a word and a number. -/
theorem isOpenRequest_cons_iff {rest path : List UInt8} {mode : ℤ} (hrest : StopsAt isDigit rest) :
    IsOpenRequest (48 :: rest) path mode ↔
      ∃ ss₂ ss₃, (IStream.mk rest rest.isEmpty false).extractWord = (some path, ss₂) ∧
        ss₂.extractInt = (some mode, ss₃) := by
  have hop : (IStream.ofBytes (48 :: rest)).extractInt =
      (some opOpen, ⟨rest, rest.isEmpty, false⟩) :=
    (extractInt_eq_some_iff (good_ofBytes _)).mpr
      ⟨[], [48], rest, rfl, nofun, numeral_intToDec 0, by decide, hrest, rfl⟩
  rw [← extract_open_iff]
  constructor
  · rintro ⟨ss₁, ss₂, ss₃, h₁, h₂, h₃⟩
    obtain rfl := (Prod.mk.inj (hop.symm.trans h₁)).2
    exact ⟨ss₂, ss₃, h₂, h₃⟩
  · rintro ⟨ss₂, ss₃, h₂, h₃⟩
    exact ⟨_, ss₂, ss₃, hop, h₂, h₃⟩

theorem stopsAt_isDigit_of_blank {ws rest : List UInt8} (hws : Blank ws) (hne : ws ≠ []) :
    StopsAt isDigit (ws ++ rest) := by
  intro b hb
  obtain ⟨c, ws, rfl⟩ := List.exists_cons_of_ne_nil hne
  obtain rfl : c = b := by simpa using hb
  by_contra hdigit
  have hspace := hws c (by simp)
  rw [isSpace_eq_false_of_isDigit (by simpa using hdigit)] at hspace
  cases hspace

/-- The first word is the path, and the mode is read from what follows it. -/
theorem isOpenRequest_word_iff {ws word rest path : List UInt8} {mode : ℤ} (hws : Blank ws)
    (hne : ws ≠ []) (hword : word ≠ []) (hrun : LongestRun (!isSpace ·) word rest) :
    IsOpenRequest (48 :: (ws ++ word ++ rest)) path mode ↔ path = word ∧ IntAt rest mode := by
  have hstop : StopsAt isDigit (ws ++ word ++ rest) := by
    rw [List.append_assoc]
    exact stopsAt_isDigit_of_blank hws hne
  have hextract : (IStream.mk (ws ++ word ++ rest) (ws ++ word ++ rest).isEmpty false).extractWord =
      (some word, ⟨rest, rest.isEmpty, false⟩) :=
    (extractWord_eq_some_iff (good_rest.mpr (by simp [hword]))).mpr
      ⟨ws, rest, rfl, hws, hword, hrun, rfl⟩
  rw [isOpenRequest_cons_iff hstop, hextract, ← extractInt_rest_iff]
  constructor
  · rintro ⟨ss₂, ss₃, h₂, h₃⟩
    obtain ⟨hpath, rfl⟩ := Prod.mk.inj h₂
    exact ⟨(Option.some.inj hpath).symm, ss₃, h₃⟩
  · rintro ⟨rfl, ss₃, h₃⟩
    exact ⟨_, ss₃, rfl, h₃⟩

/-- Without a word there is no request. -/
theorem not_isOpenRequest_blank {ws path : List UInt8} {mode : ℤ} (hws : Blank ws) :
    ¬IsOpenRequest (48 :: ws) path mode := by
  have hstop : StopsAt isDigit ws := by
    intro b hb
    cases ws with
    | nil => cases hb
    | cons c ws => exact @stopsAt_isDigit_of_blank _ [] hws (by simp) b (by simpa using hb)
  rw [isOpenRequest_cons_iff hstop]
  rintro ⟨ss₂, ss₃, h₂, -⟩
  by_cases hne : ws = []
  · subst hne
    cases h₂
  · obtain ⟨ws', tail, heq, -, hpath, hrun, -⟩ := (extractWord_eq_some_iff (good_rest.mpr hne)).mp h₂
    obtain ⟨b, bs, rfl⟩ := List.exists_cons_of_ne_nil hpath
    have hspace := hws b (by rw [show ws = ws' ++ b :: bs ++ tail from heq]; simp)
    have hword := hrun.all b (by simp)
    simp [hspace] at hword

/-! ### The text that is sent -/

/-- The bytes of a request from its parts. -/
theorem text_bytes (path rest : List UInt8) :
    intToDec opOpen ++ ofText " " ++ path ++ ofText " " ++ rest =
      48 :: ([32] ++ path ++ 32 :: rest) := by
  have hop : intToDec opOpen = [48] := by decide
  have hspace : ofText " " = [32] := by decide
  rw [hop, hspace]
  simp

theorem requestText_open (path : List UInt8) (mode : BitVec 32) :
    requestText opOpen path mode = 48 :: ([32] ++ path ++ 32 :: intToDec mode.toInt) :=
  text_bytes path _

theorem blank_space : Blank [32] := by
  intro b hb
  rw [List.mem_singleton.mp hb]
  rfl

theorem inRange_toInt (mode : BitVec 32) : InRange mode.toInt :=
  ⟨mode.le_toInt, mode.toInt_lt⟩

/-- The mode can be read from the end of the text. -/
theorem intAt_space_mode (mode : BitVec 32) : IntAt (32 :: intToDec mode.toInt) mode.toInt :=
  ⟨[32], intToDec mode.toInt, [], by simp, blank_space, numeral_intToDec _, inRange_toInt mode, nofun⟩

/-- A word before a space is a longest run. -/
theorem longestRun_space {word rest : List UInt8} (hword : ∀ b ∈ word, isSpace b = false) :
    LongestRun (!isSpace ·) word (32 :: rest) where
  all b hb := by simp [hword b hb]
  stop b hb := by
    obtain rfl : 32 = b := by simpa using hb
    rfl

/-- `unix_socket_send_request` writes the whole text if no write fails. -/
theorem sendRequest_of_reliable {os : List Outcome} (hos : .fail ∉ os) (cmd : ℤ)
    (path : List UInt8) (mode : BitVec 32) :
    ∃ os', sendRequest os cmd path mode = (0, requestText cmd path mode, os') := by
  obtain ⟨os', hwrite, -⟩ := writen_of_reliable (requestText cmd path mode) hos
  exact ⟨os', by rw [sendRequest, hwrite]⟩

/-- One `read` that is not short returns a text that fits. -/
theorem read_whole {text : List UInt8} (h : text.length ≤ maxMsgSize) :
    (Source.mk text []).read maxMsgSize = (some text, ⟨[], []⟩) := by
  rw [Source.read, List.take_of_length_le h, List.drop_of_length_le h]

/-- **A path without white space comes back as it was sent.**  The request that
`unix_socket_send_request` writes and the server reads whole is taken apart into the
opcode, the path and the mode, and the server opens exactly that path with that mode. -/
theorem sendRequest_roundTrip (φ : Type*) {os : List Outcome} (hos : .fail ∉ os)
    {path : List UInt8} (hne : path ≠ []) (hpath : ∀ b ∈ path, isSpace b = false)
    (hnul : 0 ∉ path) (mode : BitVec 32)
    (hlen : (requestText opOpen path mode).length ≤ maxMsgSize) :
    ∃ text os' src, sendRequest os opOpen path mode = (0, text, os') ∧
      (Source.mk text []).read maxMsgSize = (some text, src) ∧
      (∃ ss₁ ss₂ ss₃, (IStream.ofBytes text).extractInt = (some opOpen, ss₁) ∧
        ss₁.extractWord = (some path, ss₂) ∧ ss₂.extractInt = (some mode.toInt, ss₃)) ∧
      OpensExactly φ text path mode := by
  obtain ⟨os', hsend⟩ := sendRequest_of_reliable hos opOpen path mode
  have hreq : IsOpenRequest (requestText opOpen path mode) path mode.toInt := by
    rw [requestText_open,
      isOpenRequest_word_iff blank_space (by simp) hne (longestRun_space hpath)]
    exact ⟨rfl, intAt_space_mode mode⟩
  refine ⟨_, os', _, hsend, read_whole hlen, extract_open_iff.mpr hreq, fun opens pad fds => ?_⟩
  rw [processRequest_eq_opened hreq, cStr_of_notMem hnul, BitVec.ofInt_toInt]

/-- A path that looks like a number, with a negative mode, written byte by byte. -/
theorem sendRequest_roundTrip_number :
    ∃ text os' src, sendRequest [.upTo 0, .upTo 0] opOpen (ofText "-12") (-3) = (0, text, os') ∧
      (Source.mk text []).read maxMsgSize = (some text, src) ∧
      (∃ ss₁ ss₂ ss₃, (IStream.ofBytes text).extractInt = (some opOpen, ss₁) ∧
        ss₁.extractWord = (some (ofText "-12"), ss₂) ∧
        ss₂.extractInt = (some (BitVec.toInt (-3 : BitVec 32)), ss₃)) ∧
      OpensExactly ℕ text (ofText "-12") (-3) :=
  sendRequest_roundTrip ℕ (by decide) (by decide) (by decide +kernel) (by decide) (-3) (by decide)

/-! ### White space in the path -/

/-- The path has white space and a word in it, and after the first word there is nothing but
white space or a number: the first word is then taken for the path. -/
def Misread (path : List UInt8) : Prop :=
  ∃ ws word rest, path = ws ++ word ++ rest ∧ Blank ws ∧ word ≠ [] ∧
    LongestRun (!isSpace ·) word rest ∧ (ws ≠ [] ∨ rest ≠ []) ∧ (Blank rest ∨ ∃ v, IntAt rest v)

/-- A text is blank or starts with a first word. -/
theorem blank_or_word (text : List UInt8) : Blank text ∨ ∃ ws word rest,
    text = ws ++ word ++ rest ∧ Blank ws ∧ word ≠ [] ∧ LongestRun (!isSpace ·) word rest := by
  obtain ⟨heq, hws⟩ := (takeWhile_dropWhile_iff (l := text) (p := isSpace)).mp ⟨rfl, rfl⟩
  cases hrest : text.dropWhile isSpace with
  | nil =>
      rw [hrest, List.append_nil] at heq
      rw [heq]
      exact .inl hws.all
  | cons b rest =>
      obtain ⟨hsplit, hrun⟩ :=
        (takeWhile_dropWhile_iff (l := b :: rest) (p := (!isSpace ·))).mp ⟨rfl, rfl⟩
      refine .inr ⟨_, _, _, ?_, hws.all, ?_, hrun⟩
      · rw [List.append_assoc, ← hsplit, ← hrest]
        exact heq
      · have hstart := hws.stop b (by rw [hrest]; rfl)
        simp [hstart]

/-- What the text for a path with a first word asks for. -/
theorem isOpenRequest_requestText_iff {ws word rest path : List UInt8} {mode : BitVec 32} {m : ℤ}
    (hws : Blank ws) (hword : word ≠ []) (hrun : LongestRun (!isSpace ·) word rest) :
    IsOpenRequest (requestText opOpen (ws ++ word ++ rest) mode) path m ↔
      path = word ∧ IntAt (rest ++ 32 :: intToDec mode.toInt) m := by
  have hblank : Blank ([32] ++ ws) := by
    intro b hb
    rcases List.mem_append.mp hb with hb | hb
    · exact blank_space b hb
    · exact hws b hb
  have hrun' : LongestRun (!isSpace ·) word (rest ++ 32 :: intToDec mode.toInt) := by
    refine ⟨hrun.all, fun b hb => ?_⟩
    cases rest with
    | nil => exact (@longestRun_space [] _ nofun).stop b hb
    | cons c rest => exact hrun.stop b hb
  rw [← isOpenRequest_word_iff hblank (by simp) hword hrun', requestText_open]
  simp

/-- **What becomes of white space in a path.**  The text written for a path and a mode is
answered faithfully exactly if the path is not misread: if it has no white space, is
nothing but white space, or goes on after its first word with something that is neither
blank nor a number. -/
theorem sendRequest_faithful_iff (φ : Type*) {os : List Outcome} (hos : .fail ∉ os)
    {path : List UInt8} (hne : path ≠ []) (hnul : 0 ∉ path) (mode : BitVec 32)
    (hlen : (requestText opOpen path mode).length ≤ maxMsgSize) :
    ∃ text os' buf src, sendRequest os opOpen path mode = (0, text, os') ∧
      (Source.mk text []).read maxMsgSize = (some buf, src) ∧
      (Faithful φ buf path mode ↔ ¬Misread path) := by
  obtain ⟨os', hsend⟩ := sendRequest_of_reliable hos opOpen path mode
  refine ⟨_, os', _, _, hsend, read_whole hlen, ?_⟩
  rw [faithful_iff]
  constructor
  · rintro hfaithful ⟨ws, word, rest, rfl, hws, hword, hrun, hmore, hrest⟩
    obtain ⟨m, hm⟩ : ∃ m, IntAt (rest ++ 32 :: intToDec mode.toInt) m := by
      by_cases hblank : Blank rest
      · exact ⟨_, intAt_blank_append hblank (intAt_space_mode mode)⟩
      · obtain ⟨v, hv⟩ := hrest.resolve_left hblank
        exact ⟨v, (intAt_append_space_iff rfl hblank).mpr hv⟩
    have hname := (hfaithful word m
      ((isOpenRequest_requestText_iff hws hword hrun).mpr ⟨rfl, hm⟩)).1
    rw [cStr_of_notMem fun h => hnul (by simp [h])] at hname
    have hlength := congrArg List.length hname
    rw [List.length_append, List.length_append] at hlength
    rcases hmore with h | h
    · have := List.length_pos_iff.mpr h
      omega
    · have := List.length_pos_iff.mpr h
      omega
  · intro hgood p m hreq
    rcases blank_or_word path with hblank | ⟨ws, word, rest, rfl, hws, hword, hrun⟩
    · -- the mode is taken for the path, and no mode is left
      have hnum := numeral_intToDec mode.toInt
      have hrun : LongestRun (!isSpace ·) (intToDec mode.toInt) [] :=
        ⟨fun b hb => by simp [hnum.not_space b hb], nofun⟩
      have hblank' : Blank ([32] ++ path ++ [32]) := by
        intro b hb
        simp only [List.mem_append, List.mem_singleton] at hb
        rcases hb with (rfl | hb) | rfl
        · rfl
        · exact hblank b hb
        · rfl
      rw [requestText_open, show [32] ++ path ++ 32 :: intToDec mode.toInt =
        [32] ++ path ++ [32] ++ intToDec mode.toInt ++ [] by simp,
        isOpenRequest_word_iff hblank' (by simp) hnum.ne_nil hrun] at hreq
      exact absurd rfl hreq.2.ne_nil
    · obtain ⟨rfl, hm⟩ := (isOpenRequest_requestText_iff hws hword hrun).mp hreq
      by_cases hmore : ws ≠ [] ∨ rest ≠ []
      · have hrest : ¬Blank rest ∧ ¬∃ v, IntAt rest v := by
          rw [← not_or]
          exact fun h => hgood ⟨ws, p, rest, rfl, hws, hword, hrun, hmore, h⟩
        exact absurd ⟨m, (intAt_append_space_iff rfl hrest.1).mp hm⟩ hrest.2
      · -- the path is one word
        obtain ⟨rfl, rfl⟩ : ws = [] ∧ rest = [] := by
          simpa [not_or] using hmore
        rw [List.nil_append, List.append_nil] at hnul ⊢
        obtain rfl := hm.unique (intAt_space_mode mode)
        exact ⟨cStr_of_notMem hnul, BitVec.ofInt_toInt⟩

/-- A path with a space after which there is a word that is not a number. -/
theorem sendRequest_faithful_iff_words : ∃ text os' buf src,
    sendRequest [] opOpen (ofText "my file") 0 = (0, text, os') ∧
    (Source.mk text []).read maxMsgSize = (some buf, src) ∧
    (Faithful ℕ buf (ofText "my file") 0 ↔ ¬Misread (ofText "my file")) :=
  sendRequest_faithful_iff ℕ (by decide) (by decide) (by decide) 0 (by decide)

/-- The request for the file "backup 2024.tar" opens the file "backup". -/
theorem not_faithful_backup : ofText "backup 2024.tar" ≠ [] ∧ 0 ∉ ofText "backup 2024.tar" ∧
    (requestText opOpen (ofText "backup 2024.tar") 0).length ≤ maxMsgSize ∧
    OpensExactly ℕ (requestText opOpen (ofText "backup 2024.tar") 0) (ofText "backup") 2024 ∧
    ¬Faithful ℕ (requestText opOpen (ofText "backup 2024.tar") 0) (ofText "backup 2024.tar") 0 := by
  have hreq : IsOpenRequest (requestText opOpen (ofText "backup 2024.tar") 0) (ofText "backup") 2024 :=
    extract_open_iff.mp ⟨_, _, _, rfl, rfl, rfl⟩
  refine ⟨by decide, by decide, by decide, fun opens pad fds => ?_, fun h => ?_⟩
  · exact processRequest_eq_opened hreq opens pad fds
  · exact absurd (faithful_iff.mp h _ _ hreq).1 (by decide)

/-! ### A text that is cut -/

/-- A read returns the beginning of what there is. -/
theorem prefix_of_read {text buf : List UInt8} {sched : List Outcome} {n : ℕ} {src : Source UInt8}
    (h : (Source.mk text sched).read n = (some buf, src)) : buf <+: text := by
  unfold Source.read at h
  split at h
  · obtain rfl := Option.some.inj (Prod.mk.inj h).1
    exact List.take_prefix _ _
  · cases h
  · obtain rfl := Option.some.inj (Prod.mk.inj h).1
    exact List.take_prefix _ _

/-- Before the first digit of the mode there is no request. -/
theorem not_isOpenRequest_of_cut {buf path p : List UInt8} {m : ℤ}
    (hpath : ∀ b ∈ path, isSpace b = false) (hbuf : buf ≠ [])
    (hcut : buf <+: intToDec opOpen ++ ofText " " ++ path ++ ofText " ") :
    ¬IsOpenRequest buf p m := by
  have hbytes := text_bytes path []
  rw [List.append_nil] at hbytes
  rw [hbytes] at hcut
  obtain ⟨b, rest, rfl⟩ := List.exists_cons_of_ne_nil hbuf
  obtain ⟨rfl, hargs⟩ := List.cons_prefix_cons.mp hcut
  cases rest with
  | nil => exact not_isOpenRequest_blank nofun
  | cons c rest =>
      rw [List.append_assoc, List.singleton_append] at hargs
      obtain ⟨rfl, hrest⟩ := List.cons_prefix_cons.mp hargs
      intro hreq
      rcases List.prefix_concat_iff.mp hrest with rfl | hword
      · -- the separator is there, but no mode
        by_cases hne : path = []
        · subst hne
          exact not_isOpenRequest_blank (by unfold Blank; decide +kernel) hreq
        · have hrun : LongestRun (!isSpace ·) path [32] := longestRun_space hpath
          have h := (isOpenRequest_word_iff blank_space (by simp) hne hrun).mp hreq
          exact blank_space.not_intAt m h.2
      · by_cases hne : rest = []
        · subst hne
          exact not_isOpenRequest_blank blank_space hreq
        · have hrun : LongestRun (!isSpace ·) rest [] :=
            ⟨fun b hb => by simp [hpath b (hword.subset hb)], nofun⟩
          rw [← List.append_nil rest] at hreq
          have h := (isOpenRequest_word_iff blank_space (by simp) hne hrun).mp hreq
          exact h.2.ne_nil rfl

/-- What a text asks for that was cut behind the first digit of the mode. -/
theorem isOpenRequest_digits_iff {path ds p : List UInt8} {m : ℤ} {n : ℕ} (hne : path ≠ [])
    (hpath : ∀ b ∈ path, isSpace b = false) (hds : ds <+: toDec n) (hds' : ds ≠ [])
    (hn : (n : ℤ) < 2 ^ 31) :
    IsOpenRequest (intToDec opOpen ++ ofText " " ++ path ++ ofText " " ++ ds) p m ↔
      p = path ∧ m = ofDec ds := by
  have hdigits : ∀ d ∈ ds, isDigit d = true := fun d hd => isDigit_of_mem_toDec (hds.subset hd)
  have hle : ofDec ds ≤ n := by
    obtain ⟨es, hes⟩ := hds
    have := ofDec_le_append ds es
    rwa [hes, ofDec_toDec] at this
  have hint : IntAt (32 :: ds) (ofDec ds) :=
    ⟨[32], ds, [], by simp, blank_space, .plain hds' hdigits, ⟨by omega, by omega⟩, nofun⟩
  rw [text_bytes, isOpenRequest_word_iff blank_space (by simp) hne (longestRun_space hpath)]
  exact and_congr_right fun _ => ⟨fun h => h.unique hint, fun h => h ▸ hint⟩

/-- **What becomes of a text that is cut.**  The server's answer to what one `read` has
returned of a request is faithful exactly if the read ended before the first digit of the
mode or the request was read whole; and then the path must not have a NUL, where
`c_str()` ends. -/
theorem read_faithful_iff (φ : Type*) {path : List UInt8} (hne : path ≠ [])
    (hpath : ∀ b ∈ path, isSpace b = false) {mode : BitVec 32} (hmode : 0 ≤ mode.toInt)
    {sched : List Outcome} {buf : List UInt8} {src : Source UInt8}
    (hread : (Source.mk (requestText opOpen path mode) sched).read maxMsgSize = (some buf, src))
    (hbuf : buf ≠ []) :
    Faithful φ buf path mode ↔
      buf <+: intToDec opOpen ++ ofText " " ++ path ++ ofText " " ∨
        buf = requestText opOpen path mode ∧ 0 ∉ path := by
  by_cases hcut : buf <+: intToDec opOpen ++ ofText " " ++ path ++ ofText " "
  · refine iff_of_true (faithful_iff.mpr fun p m hreq => ?_) (.inl hcut)
    exact absurd hreq (not_isOpenRequest_of_cut hpath hbuf hcut)
  · obtain ⟨n, hn⟩ := Int.eq_ofNat_of_zero_le hmode
    have hnum : intToDec mode.toInt = toDec n := by
      rw [hn, intToDec, if_neg (by omega), Int.natAbs_natCast]
    have htext : requestText opOpen path mode =
        intToDec opOpen ++ ofText " " ++ path ++ ofText " " ++ toDec n := by
      rw [requestText, hnum]
    have hlt : (n : ℤ) < 2 ^ 31 := hn ▸ mode.toInt_lt
    -- the read has gone beyond the separator
    have hpre := prefix_of_read hread
    rw [htext] at hpre
    obtain ⟨ds, rfl⟩ := (List.prefix_or_prefix_of_prefix hpre (List.prefix_append _ _)).resolve_left
      hcut
    have hds : ds <+: toDec n := (List.prefix_append_right_inj _).mp hpre
    have hds' : ds ≠ [] := by
      rintro rfl
      exact hcut ⟨[], by rw [List.append_nil, List.append_nil]⟩
    rw [or_iff_right hcut, faithful_iff, htext, List.append_cancel_left_eq]
    constructor
    · intro h
      obtain ⟨hname, hflags⟩ := h path (ofDec ds)
        ((isOpenRequest_digits_iff hne hpath hds hds' hlt).mpr ⟨rfl, rfl⟩)
      refine ⟨?_, fun h0 => ?_⟩
      · obtain ⟨es, hes⟩ := hds
        have hle := ofDec_le_append ds es
        rw [hes, ofDec_toDec] at hle
        have hval := congrArg BitVec.toInt hflags
        rw [BitVec.toInt_ofInt_eq_self (by decide) (by omega) (by omega), hn] at hval
        rw [← hes, eq_nil_of_ofDec_eq hes.symm hds' (by omega), List.append_nil]
      · rw [cStr, List.takeWhile_eq_self_iff] at hname
        simpa using hname 0 h0
    · rintro ⟨rfl, hnul⟩ p m hreq
      obtain ⟨rfl, rfl⟩ := (isOpenRequest_digits_iff hne hpath hds hds' hlt).mp hreq
      rw [ofDec_toDec, ← hn, BitVec.ofInt_toInt]
      exact ⟨cStr_of_notMem hnul, rfl⟩

/-- A request that is read whole. -/
theorem read_faithful_iff_whole : Faithful ℕ (ofText "0 a 66") (ofText "a") 66 ↔
    ofText "0 a 66" <+: intToDec opOpen ++ ofText " " ++ ofText "a" ++ ofText " " ∨
      ofText "0 a 66" = requestText opOpen (ofText "a") 66 ∧ 0 ∉ ofText "a" := by
  have hread : (Source.mk (requestText opOpen (ofText "a") 66) []).read maxMsgSize =
      (some (ofText "0 a 66"), ⟨[], []⟩) := rfl
  exact read_faithful_iff ℕ (by decide) (by decide +kernel) (by decide) hread (by decide)

/-- A path of 1020 bytes. -/
def longPath : List UInt8 := (List.replicate 510 (ofText "/a")).flatten

/-- The request to open it with the flags `O_RDWR | O_CREAT`, which are 66, has one byte more
than the server reads at once, and is taken for one with the flags 6. -/
theorem not_faithful_longPath : longPath ≠ [] ∧ (∀ b ∈ longPath, isSpace b = false) ∧
    (0 : ℤ) ≤ (66 : BitVec 32).toInt ∧
    ∃ buf src, (Source.mk (requestText opOpen longPath 66) []).read maxMsgSize = (some buf, src) ∧
      buf ≠ [] ∧ ¬Faithful ℕ buf longPath 66 := by
  have hne : longPath ≠ [] := by decide +kernel
  have hpath : ∀ b ∈ longPath, isSpace b = false := by decide +kernel
  have hread : (requestText opOpen longPath 66).take maxMsgSize =
      intToDec opOpen ++ ofText " " ++ longPath ++ ofText " " ++ [54] := by decide +kernel
  have hds : [54] <+: toDec 66 := by decide
  have hreq := (isOpenRequest_digits_iff hne hpath hds (by decide) (by decide)).mpr ⟨rfl, rfl⟩
  refine ⟨hne, hpath, by decide, _, _, rfl, ?_⟩
  rw [hread]
  exact ⟨by simp, fun h => absurd (faithful_iff.mp h _ _ hreq).2 (by decide)⟩

end Apue.UnixSocket
