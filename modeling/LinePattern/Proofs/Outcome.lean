import LinePattern.Proofs.Decoding
import LinePattern.Proofs.Occurrence
import LinePattern.Stages

/-!
# The outcome

The stages of an answer as the program runs through them. Each stage has a lemma that says what
comes of it where it fails. As some stage fails or all pass (`fails_or_passes`), the failures of
the answer are the ones that the stages name (`answer_eq_error_iff`).

Main statements:

* `Request.answer_of_bytes`: from the bytes on, for a request whose pattern compiles.
* `respond_of_stages`: from the arguments to what is reported. That a greater limit does not matter
  is a fact about lines (`Input.line_of_limit_le`).
-/

namespace LinePattern

open Utf8 (encode Malformed WellFormed)

variable {args : List String} {input : Input} {request request' : Request} {p : Pattern}
  {text : List Char} {limit limit' : Nat}

/-! ### The line of an input -/

/-- An input that cannot be read has no line, whatever was read before. -/
theorem Input.line_of_failure {reason : String} (h : input.failure? = some reason) (limit : Nat) :
    input.line limit = .error (.unreadable reason) := by
  rw [line, h]

/-- Bytes that are no text have no line. -/
theorem Input.line_of_malformed {cause : Utf8.DecodeError} (h : input.failure? = none)
    (h_malformed : Malformed input.bytes cause) (limit : Nat) :
    input.line limit = .error (.encoding cause) := by
  rw [line, h, Utf8.decode_eq_error_iff.mpr h_malformed]

/-- The line of a text is what is left without the terminator, and the limit is held against that.
-/
theorem Input.line_of_text (h : input.failure? = none) (h_text : input.bytes = encode text)
    (limit : Nat) :
    input.line limit =
      if limit < (Line.stripTerminator text).length then
        .error (.lineTooLong (Line.stripTerminator text).length limit)
      else .ok (Line.stripTerminator text) := by
  rw [line, h, Utf8.decode_eq_ok_iff.mpr h_text]

/-- A greater limit is of no account where the line is not too long for the smaller one. -/
theorem Input.line_of_limit_le (h_le : limit ≤ limit')
    (h : ∀ length, input.line limit ≠ .error (.lineTooLong length limit)) :
    input.line limit' = input.line limit := by
  -- The two stages in front of the limit do not know it.
  cases h_failure : input.failure? with
  | some reason => rw [line_of_failure h_failure, line_of_failure h_failure]
  | none =>
    cases h_decode : Utf8.decode input.bytes with
    | error cause =>
      have h_malformed := Utf8.decode_eq_error_iff.mp h_decode
      rw [line_of_malformed h_failure h_malformed, line_of_malformed h_failure h_malformed]
    | ok text =>
      -- Only here the limits are looked at, and the line keeps to both.
      have h_text := Utf8.decode_eq_ok_iff.mp h_decode
      have h_length : ¬ limit < (Line.stripTerminator text).length := by
        intro h_lt
        apply h (Line.stripTerminator text).length
        rw [line_of_text h_failure h_text, if_pos h_lt]
      rw [line_of_text h_failure h_text, line_of_text h_failure h_text, if_neg h_length,
        if_neg (fun h_lt => h_length (h_le.trans_lt h_lt))]

/-! ### The answer to a request -/

/-- Where the pattern compiles the input has its say: a line is searched, and a failure is handed
on. -/
theorem Request.answer_of_compile (h : Pattern.compile request.pattern.toList = .ok p)
    (input : Input) : request.answer input = (input.line request.maxLineChars).map p.search := by
  rw [answer, compile, h]
  rfl

/-- Where it does not, the input is not looked at. -/
theorem Request.answer_of_compile_error {cause : Pattern.CompileError}
    (h : Pattern.compile request.pattern.toList = .error cause) (input : Input) :
    request.answer input = .error (.pattern request.pattern cause) := by
  rw [answer, compile, h]
  rfl

/-- A greater limit is of no account where the line is not too long for the smaller one. -/
theorem Request.answer_of_limit_le (h_pattern : request'.pattern = request.pattern)
    (h_le : request.maxLineChars ≤ request'.maxLineChars)
    (h : ∀ length, request.answer input ≠ .error (.lineTooLong length request.maxLineChars)) :
    request'.answer input = request.answer input := by
  cases h_compile : Pattern.compile request.pattern.toList with
  | error cause =>
    rw [answer_of_compile_error h_compile, answer_of_compile_error (h_pattern ▸ h_compile),
      h_pattern]
  | ok p =>
    -- A line that is too long would be told, since compiling does not fail in front of it.
    have h_line : ∀ length, input.line request.maxLineChars ≠
        .error (.lineTooLong length request.maxLineChars) := by
      intro length h_tooLong
      apply h length
      rw [answer_of_compile h_compile, h_tooLong]
      rfl
    calc request'.answer input
        = (input.line request'.maxLineChars).map p.search :=
          answer_of_compile (h_pattern ▸ h_compile) input
      _ = (input.line request.maxLineChars).map p.search := by
          rw [Input.line_of_limit_le h_le h_line]
      _ = request.answer input := (answer_of_compile h_compile input).symm

/-- **Bytes as text.** Where the pattern compiles and the input is read to its end, the bytes of a
text are answered as that text, which is the only one they are the bytes of; and bytes of no text
are refused with the one error that is true of them. The bytes of the texts are the well-formed
ones. -/
theorem Request.answer_of_bytes (h : Pattern.compile request.pattern.toList = .ok p)
    (bytes : List UInt8) :
    (∀ text, bytes = encode text →
      (∀ text', bytes = encode text' → text' = text) ∧
      request.answer ⟨bytes, none⟩ =
        if request.maxLineChars < (Line.stripTerminator text).length then
          .error (.lineTooLong (Line.stripTerminator text).length request.maxLineChars)
        else .ok (p.search (Line.stripTerminator text))) ∧
    ((∀ text, bytes ≠ encode text) →
      ∃ e, request.answer ⟨bytes, none⟩ = .error (.encoding e) ∧ Malformed bytes e ∧
        (∀ e', Malformed bytes e' → e' = e) ∧
        ∀ index length, e = .invalid index length → 1 ≤ length ∧ length ≤ 3) ∧
    (WellFormed bytes ↔ ∃ text, bytes = encode text) := by
  refine ⟨?_, ?_, Utf8.wellFormed_iff⟩
  · -- A text is searched for, or refused for its length only.
    intro text h_text
    refine ⟨fun text' h_text' => Utf8.eq_of_encode_eq (h_text'.symm.trans h_text), ?_⟩
    rw [Request.answer_of_compile h, Input.line_of_text rfl h_text]
    split <;> rfl
  · -- Without a text decoding fails, and its error is the one that is true of the bytes.
    intro h_text
    cases h_decode : Utf8.decode bytes with
    | ok text => exact absurd (Utf8.decode_eq_ok_iff.mp h_decode) (h_text text)
    | error e =>
      obtain ⟨h_malformed, h_length⟩ := Utf8.malformed_of_decode_eq_error h_decode
      refine ⟨e, ?_, h_malformed, fun e' h' => h'.eq h_malformed, h_length⟩
      rw [Request.answer_of_compile h, Input.line_of_malformed rfl h_malformed]
      rfl

/-- A line of two chars and three bytes is not too long where two are allowed. A second byte that
would write a char in more bytes than it needs is not one that the first byte goes with. -/
theorem Request.answer_of_edge_bytes :
    Pattern.compile (Request.mk "^a." 2).pattern.toList =
        .ok [.lineStart, .atom (.literal 'a') .one, .atom .wildcard .one] ∧
      (Request.mk "^a." 2).answer ⟨encode ['a', 'é', '\r', '\n'], none⟩ = .ok true ∧
      (Request.mk "^a." 2).answer ⟨[0x61, 0xE0, 0x9F, 0xBF], none⟩ =
        .error (.encoding (.invalid 1 1)) ∧
      Malformed [0x61, 0xE0, 0x9F, 0xBF] (.invalid 1 1) := by
  have h_compile : Pattern.compile (Request.mk "^a." 2).pattern.toList =
      .ok [.lineStart, .atom (.literal 'a') .one, .atom .wildcard .one] := by
    decide +kernel
  have h_malformed : Malformed [0x61, 0xE0, 0x9F, 0xBF] (.invalid 1 1) :=
    Utf8.decode_eq_error_iff.mp (by decide +kernel)
  obtain ⟨h_text, -, -⟩ :=
    Request.answer_of_bytes h_compile (encode ['a', 'é', '\r', '\n'])
  obtain ⟨-, h_refused, -⟩ := Request.answer_of_bytes h_compile [0x61, 0xE0, 0x9F, 0xBF]
  obtain ⟨e, h_error, -, h_unique, -⟩ := h_refused h_malformed.ne_encode
  refine ⟨h_compile, (h_text _ rfl).2.trans (by decide +kernel), ?_, h_malformed⟩
  rw [h_error, ← h_unique _ h_malformed]

/-! ### The answer to the arguments -/

/-- Arguments that are no request are told, whatever the input. -/
theorem answer_of_usage {cause : UsageError} (h : Request.ofArgs args = .error cause)
    (input : Input) : answer args input = .error (.usage cause) := by
  rw [answer, h]
  rfl

/-- Arguments that are a request are answered as the request. -/
theorem answer_of_request (h : Request.ofArgs args = .ok request) (input : Input) :
    answer args input = request.answer input := by
  rw [answer, h]
  rfl

/-- Where the stages that do not look at the input pass, the line of the input decides. -/
theorem Configures.answer_eq (h : Configures args request p) (input : Input) :
    answer args input = (input.line request.maxLineChars).map p.search := by
  rw [answer_of_request h.ofArgs, Request.answer_of_compile h.compile]

/-- The first stage that fails is the answer. -/
theorem Fails.answer_eq {failure : Failure} (h : Fails args input failure) :
    answer args input = .error failure := by
  -- Each stage is told where those in front of it pass, which is what its constructor carries.
  cases h with
  | usage ofArgs => exact answer_of_usage ofArgs input
  | pattern ofArgs compile =>
    rw [answer_of_request ofArgs, Request.answer_of_compile_error compile]
  | unreadable configures failure =>
    rw [configures.answer_eq, Input.line_of_failure failure]
    rfl
  | encoding configures readable malformed =>
    rw [configures.answer_eq, Input.line_of_malformed readable malformed]
    rfl
  | lineTooLong configures readable bytes limit_lt =>
    rw [configures.answer_eq, Input.line_of_text readable bytes, if_pos limit_lt]
    rfl

/-- Where no stage fails the answer is that of the search. -/
theorem Passes.answer_eq (h : Passes args input request p text) :
    answer args input = .ok (p.search (Line.stripTerminator text)) := by
  rw [h.configures.answer_eq, Input.line_of_text h.readable h.bytes, if_neg h.length_le.not_gt]
  rfl

/-- Some stage is the first to fail, or all of them pass. -/
theorem fails_or_passes (args : List String) (input : Input) :
    (∃ failure, Fails args input failure) ∨
      ∃ request p text, Passes args input request p text := by
  -- Stage by stage, in the order of the program: each fails, or leads on to the next.
  cases h_args : Request.ofArgs args with
  | error cause => exact .inl ⟨_, .usage h_args⟩
  | ok request =>
    cases h_compile : Pattern.compile request.pattern.toList with
    | error cause => exact .inl ⟨_, .pattern h_args h_compile⟩
    | ok p =>
      cases h_failure : input.failure? with
      | some reason => exact .inl ⟨_, .unreadable ⟨h_args, h_compile⟩ h_failure⟩
      | none =>
        cases h_decode : Utf8.decode input.bytes with
        | error cause =>
          have h_malformed := Utf8.decode_eq_error_iff.mp h_decode
          exact .inl ⟨_, .encoding ⟨h_args, h_compile⟩ h_failure h_malformed⟩
        | ok text =>
          have h_text := Utf8.decode_eq_ok_iff.mp h_decode
          by_cases h_lt : request.maxLineChars < (Line.stripTerminator text).length
          · exact .inl ⟨_, .lineTooLong ⟨h_args, h_compile⟩ h_failure h_text h_lt⟩
          · have h_le := Nat.le_of_not_lt h_lt
            exact .inr ⟨request, p, text, ⟨h_args, h_compile⟩, h_failure, h_text, h_le⟩

/-- **Failures.** What the answer fails with is the first stage that fails, and nothing else is. -/
theorem answer_eq_error_iff {failure : Failure} :
    answer args input = .error failure ↔ Fails args input failure := by
  constructor
  · intro h
    obtain ⟨failure', h_fails⟩ | ⟨request, p, text, h_passes⟩ := fails_or_passes args input
    · rw [h_fails.answer_eq, Except.error.injEq] at h
      rwa [h] at h_fails
    · -- Where all stages pass there is an answer, and so no failure.
      rw [h_passes.answer_eq] at h
      contradiction
  · exact Fails.answer_eq

/-! ### What is reported -/

/-- A failure is told on the standard error, with its chain of causes, and the exit code is two. -/
theorem Fails.respond_eq {failure : Failure} (h : Fails args input failure) :
    respond args input =
      { exit := 2, out := "", err := "error: " ++ ": ".intercalate failure.chain ++ "\n" } := by
  rw [respond, h.answer_eq, ← failure.message_eq]
  rfl

/-- Where no stage fails nothing is told, and the exit code says whether the pattern occurs. -/
theorem Passes.respond_eq (h : Passes args input request p text) :
    (p.OccursIn (Line.stripTerminator text) → respond args input = ⟨0, "", ""⟩) ∧
      (¬ p.OccursIn (Line.stripTerminator text) → respond args input = ⟨1, "", ""⟩) := by
  -- The search tells what occurs only for patterns whose anchors stand at the ends.
  have h_anchored : p.Anchored := (Pattern.wellFormed_of_compile h.configures.compile).anchored
  rw [respond, h.answer_eq, ← Pattern.search_iff_occursIn h_anchored]
  cases p.search (Line.stripTerminator text) <;> simp [Report.ofAnswer]

/-- **The outcome.** The first stage that fails decides it: there is one such failure, and it is
told with what caused it. Where no stage fails nothing is told, and the exit code says whether the
pattern occurs in the line. A greater limit leads to the same outcome, unless the line was too
long. -/
theorem respond_of_stages (args : List String) (input : Input) :
    (∀ failure, Fails args input failure →
      respond args input =
        { exit := 2, out := "", err := "error: " ++ ": ".intercalate failure.chain ++ "\n" } ∧
      ∀ failure', Fails args input failure' → failure' = failure) ∧
    ((∀ failure, ¬ Fails args input failure) →
      ∃ request p text, Passes args input request p text ∧
        (respond args input).out = "" ∧ (respond args input).err = "" ∧
        ((respond args input).exit = 0 ↔ p.OccursIn (Line.stripTerminator text)) ∧
        ((respond args input).exit = 1 ↔ ¬ p.OccursIn (Line.stripTerminator text))) ∧
    ∀ args' request request', Request.ofArgs args = .ok request →
      Request.ofArgs args' = .ok request' → request'.pattern = request.pattern →
      request.maxLineChars ≤ request'.maxLineChars →
      (∀ length, ¬ Fails args input (.lineTooLong length request.maxLineChars)) →
      respond args' input = respond args input := by
  refine ⟨?_, ?_, ?_⟩
  · intro failure h_fails
    refine ⟨h_fails.respond_eq, fun failure' h_fails' => ?_⟩
    -- Two failures would be one and the same answer.
    have h_error : Except.error failure' = .error failure :=
      h_fails'.answer_eq.symm.trans h_fails.answer_eq
    exact Except.error.inj h_error
  · intro h_none
    obtain ⟨failure, h_fails⟩ | ⟨request, p, text, h_passes⟩ := fails_or_passes args input
    · exact absurd h_fails (h_none failure)
    · refine ⟨request, p, text, h_passes, ?_⟩
      obtain ⟨h_occurs, h_absent⟩ := h_passes.respond_eq
      by_cases h : p.OccursIn (Line.stripTerminator text)
      · simp [h_occurs h, h]
      · simp [h_absent h, h]
  · intro args' request request' h_args h_args' h_pattern h_le h_short
    -- The arguments count as far as their requests do, and these differ in the limit alone.
    rw [respond, respond, answer_of_request h_args, answer_of_request h_args',
      Request.answer_of_limit_le h_pattern h_le]
    intro length h_answer
    apply h_short length
    rw [← answer_eq_error_iff, answer_of_request h_args, h_answer]

/-- Of a pattern at fault, an input that breaks off and bytes that are no text only the first is
told. A line as long as the limit is not too long, and a greater limit does not matter. -/
theorem respond_of_three_faults :
    respond ["-E", "a("] ⟨[0xFF], some "broken pipe"⟩ =
        { exit := 2, out := "",
          err := "error: invalid pattern `a(`: unterminated `(` opened at position 1\n" } ∧
      respond ["-E", "b$", "--max-line-chars=2"] ⟨encode ['a', 'b', '\r', '\n'], none⟩ =
        { exit := 0, out := "", err := "" } ∧
      respond ["-E", "b$", "--max-line-chars=3"] ⟨encode ['a', 'b', '\r', '\n'], none⟩ =
        { exit := 0, out := "", err := "" } := by
  have h_args : Request.ofArgs ["-E", "a("] = .ok ⟨"a(", 16384⟩ := by decide +kernel
  have h_fails : Fails ["-E", "a("] ⟨[0xFF], some "broken pipe"⟩
      (.pattern "a(" (.unterminated .round 1)) := .pattern h_args (by decide +kernel)
  obtain ⟨h_failure, -⟩ := respond_of_stages ["-E", "a("] ⟨[0xFF], some "broken pipe"⟩
  obtain ⟨-, -, h_limit⟩ := respond_of_stages ["-E", "b$", "--max-line-chars=2"]
    ⟨encode ['a', 'b', '\r', '\n'], none⟩
  have h_two : respond ["-E", "b$", "--max-line-chars=2"] ⟨encode ['a', 'b', '\r', '\n'], none⟩ =
      { exit := 0, out := "", err := "" } := by
    decide +kernel
  refine ⟨(h_failure _ h_fails).1.trans (by decide +kernel), h_two, ?_⟩
  rw [← h_two]
  refine h_limit _ ⟨"b$", 2⟩ ⟨"b$", 3⟩ (by decide +kernel) (by decide +kernel) rfl (by decide) ?_
  intro length h_tooLong
  have h_exit : (0 : UInt32) = 2 := congrArg Report.exit (h_two.symm.trans h_tooLong.respond_eq)
  exact absurd h_exit (by decide)

end LinePattern
