import LinePattern.Pattern.Search
import LinePattern.Request
import Mathlib.Data.List.Basic
import Mathlib.Data.List.TakeDrop
import Mathlib.Data.List.TakeWhile

/-!
# Arguments and requests

What arguments make, said without going through them: the pattern is behind the first `-E`, and the
limit is that of the first of the other arguments that carries one. The two have nothing to do with
each other, although a pattern may look like either flag. No pattern changes the limit or hides an
error in it, and an argument that is no flag is of no account wherever it stands, unless it stands
in the place of the pattern.

* `SetsLimit`, `Makes`: the limit of arguments, and the request that they make.

Main statements:

* `ofArgs_eq_iff`: `ofArgs` gives what the arguments make, a request or an error.
* `readLimit_filter`: only arguments that are flags bear on the limit.
* `ofArgs_of_flags`: from both, what the pattern and what other arguments have no influence on.
-/

namespace LinePattern.Request

/-- The limit that arguments set, or the error in it. Behind the first argument that carries a limit
there may be others, which are not looked at. -/
inductive SetsLimit : List String → Except UsageError Nat → Prop where
  /-- No argument carries a limit. -/
  | default {args : List String} (none : ∀ value, "--max-line-chars=" ++ value ∉ args) :
    SetsLimit args (.ok 16384)
  /-- The first limit is a numeral. -/
  | numeral {before after : List String} {value : String} {limit : Nat}
    (first : ∀ value', "--max-line-chars=" ++ value' ∉ before)
    (parse : Numeral.parse value.toList = .ok limit) :
    SetsLimit (before ++ ("--max-line-chars=" ++ value) :: after) (.ok limit)
  /-- The first limit is no numeral, and is told as it is written. -/
  | refused {before after : List String} {value : String} {cause : Numeral.ParseError}
    (first : ∀ value', "--max-line-chars=" ++ value' ∉ before)
    (parse : Numeral.parse value.toList = .error cause) :
    SetsLimit (before ++ ("--max-line-chars=" ++ value) :: after)
      (.error (.invalidLimit value cause))

/-- The request that arguments make, or the reason why they make none. -/
inductive Makes : List String → Except UsageError Request → Prop where
  /-- There is no `-E`, whatever limits there are. -/
  | missingFlag {args : List String} (none : "-E" ∉ args) : Makes args (.error .missingFlag)
  /-- Nothing is behind the first `-E`, whatever limits are in front of it. -/
  | missingPattern {before : List String} (first : "-E" ∉ before) :
    Makes (before ++ ["-E"]) (.error .missingPattern)
  /-- There is a pattern, and an error in the limit of the other arguments. -/
  | invalidLimit {before after : List String} {pattern : String} {cause : UsageError}
    (first : "-E" ∉ before) (limit : SetsLimit (before ++ after) (.error cause)) :
    Makes (before ++ "-E" :: pattern :: after) (.error cause)
  /-- There is a pattern, and the other arguments set a limit. -/
  | request {before after : List String} {pattern : String} {maxLineChars : Nat}
    (first : "-E" ∉ before) (limit : SetsLimit (before ++ after) (.ok maxLineChars)) :
    Makes (before ++ "-E" :: pattern :: after) (.ok { pattern, maxLineChars })

/-- Whether the argument is a flag, unless it stands in the place of the pattern. -/
def isFlag (arg : String) : Bool :=
  arg == "-E" || "--max-line-chars=".toList.isPrefixOf arg.toList

/-! ### The limit -/

section Limit

variable {args args' before after : List String} {arg value : String}

/-- An argument carries a limit if it is the flag with something directly behind it, be it nothing.
-/
theorem limitText?_eq_some_iff :
    limitText? arg = some value ↔ arg = "--max-line-chars=" ++ value := by
  rw [limitText?, Option.map_eq_some_iff]
  refine ⟨?_, ?_⟩
  · -- The chars that are left behind the flag are those of the value.
    rintro ⟨rest, h_rest, rfl⟩
    have h_arg : limitFlag.toList ++ rest = arg.toList :=
      List.isPrefixOf?_eq_some_iff_append_eq.mp h_rest
    rw [← String.toList_inj, String.toList_append, ← h_arg]
    exact congrArg (limitFlag.toList ++ ·) String.toList_ofList.symm
  · rintro rfl
    refine ⟨value.toList, List.isPrefixOf?_eq_some_iff_append_eq.mpr ?_, String.ofList_toList⟩
    exact String.toList_append.symm

/-- None of the arguments carries a limit if none of them is the flag with a value. -/
theorem forall_limitText?_eq_none_iff :
    (∀ arg ∈ args, limitText? arg = none) ↔ ∀ value, "--max-line-chars=" ++ value ∉ args := by
  simp only [Option.eq_none_iff_forall_ne_some, ne_eq, limitText?_eq_some_iff]
  refine ⟨fun h value h_mem => h _ h_mem value rfl, ?_⟩
  rintro h arg h_mem value rfl
  exact h value h_mem

/-- The first limit is the one that is read. What is behind it is of no account, and neither are
arguments in front of it without a limit. -/
theorem readLimit_of_first (first : ∀ value', "--max-line-chars=" ++ value' ∉ before)
    (value : String) (after : List String) :
    readLimit (before ++ ("--max-line-chars=" ++ value) :: after) =
      (Numeral.parse value.toList).mapError (.invalidLimit value) := by
  have h_first : (before ++ ("--max-line-chars=" ++ value) :: after).findSome? limitText? =
      some value :=
    List.findSome?_eq_some_iff.mpr ⟨before, _, after, rfl, limitText?_eq_some_iff.mpr rfl,
      forall_limitText?_eq_none_iff.mpr first⟩
  rw [readLimit, h_first]

/-- What arguments set is what is read of them. -/
theorem SetsLimit.readLimit_eq {outcome : Except UsageError Nat} (h : SetsLimit args outcome) :
    readLimit args = outcome := by
  -- Where there is a limit, the outcome is that of its value.
  cases h with
  | default none =>
    have h_none := List.findSome?_eq_none_iff.mpr (forall_limitText?_eq_none_iff.mpr none)
    rw [readLimit, h_none]
    rfl
  | numeral first parse =>
    rw [readLimit_of_first first, parse]
    rfl
  | refused first parse =>
    rw [readLimit_of_first first, parse]
    rfl

/-- What is read of arguments is what they set. -/
theorem setsLimit_readLimit (args : List String) : SetsLimit args (readLimit args) := by
  cases h_text : args.findSome? limitText? with
  | none =>
    rw [readLimit, h_text]
    exact .default (forall_limitText?_eq_none_iff.mp (List.findSome?_eq_none_iff.mp h_text))
  | some value =>
    -- The argument that is found is the first with a limit, and is the flag with its value.
    obtain ⟨before, arg, after, rfl, h_arg, h_before⟩ := List.findSome?_eq_some_iff.mp h_text
    obtain rfl := limitText?_eq_some_iff.mp h_arg
    have first := forall_limitText?_eq_none_iff.mp h_before
    rw [readLimit_of_first first]
    cases h_parse : Numeral.parse value.toList with
    | ok limit => exact .numeral first h_parse
    | error cause => exact .refused first h_parse

/-- An argument that is no flag carries no limit. -/
theorem limitText?_eq_none_of_isFlag (h : isFlag arg = false) : limitText? arg = none := by
  rw [Option.eq_none_iff_forall_ne_some]
  intro value h_some
  obtain rfl := limitText?_eq_some_iff.mp h_some
  -- With the limit flag in front it would be a flag.
  rw [isFlag, Bool.or_eq_false_iff, String.toList_append] at h
  have h_prefix := List.isPrefixOf_iff_prefix.mpr
    (List.prefix_append "--max-line-chars=".toList value.toList)
  exact absurd h_prefix (Bool.eq_false_iff.mp h.2)

/-- **Only flags bear on the limit.** -/
theorem readLimit_filter (args : List String) :
    readLimit (args.filter isFlag) = readLimit args := by
  have h_text : (args.filter isFlag).findSome? limitText? = args.findSome? limitText? := by
    induction args with
    | nil => rfl
    | cons arg args ih =>
      cases h : isFlag arg with
      | true => rw [List.filter_cons_of_pos h, List.findSome?_cons, List.findSome?_cons, ih]
      | false =>
        -- What the filter leaves out is passed by in the search as well.
        have h_arg := limitText?_eq_none_of_isFlag h
        rw [List.filter_cons_of_neg (Bool.eq_false_iff.mp h), List.findSome?_cons, h_arg, ih]
  rw [readLimit, h_text, readLimit]

end Limit

/-! ### The request -/

section Request

variable {args before before' after after' : List String} {outcome : Except UsageError Request}

/-- Arguments without the flag have none at which looking for it stops. -/
theorem bne_patternFlag_of_notMem (first : "-E" ∉ before) :
    ∀ arg ∈ before, (arg != patternFlag) = true := by
  intro arg h_mem
  rw [bne_iff_ne]
  rintro rfl
  exact first h_mem

/-- The arguments are cut in front of the first `-E`. -/
theorem span_append (first : "-E" ∉ before) (after : List String) :
    (before ++ "-E" :: after).span (· != patternFlag) = (before, "-E" :: after) := by
  have h_before := bne_patternFlag_of_notMem first
  rw [List.span_eq_takeWhile_dropWhile, List.takeWhile_append_of_pos h_before,
    List.dropWhile_append_of_pos h_before]
  simp [patternFlag]

/-- Without the flag no limit is read, not even one with an error. -/
theorem ofArgs_of_notMem (none : "-E" ∉ args) : ofArgs args = .error .missingFlag := by
  have h_args : args.dropWhile (· != patternFlag) = [] :=
    List.dropWhile_eq_nil_iff.mpr (bne_patternFlag_of_notMem none)
  rw [ofArgs, List.span_eq_takeWhile_dropWhile, h_args]

/-- Where the flag is the last argument no limit is read either. -/
theorem ofArgs_append_flag (first : "-E" ∉ before) :
    ofArgs (before ++ ["-E"]) = .error .missingPattern := by
  rw [ofArgs, span_append first]

/-- The argument behind the first flag is the pattern, and the limit is that of the others. -/
theorem ofArgs_append_pattern (first : "-E" ∉ before) (pattern : String) (after : List String) :
    ofArgs (before ++ "-E" :: pattern :: after) =
      (readLimit (before ++ after)).map ({ pattern, maxLineChars := · }) := by
  rw [ofArgs, span_append first]

/-- What arguments make is what comes of them. -/
theorem Makes.ofArgs_eq (h : Makes args outcome) : ofArgs args = outcome := by
  cases h with
  | missingFlag none => exact ofArgs_of_notMem none
  | missingPattern first => exact ofArgs_append_flag first
  | invalidLimit first limit =>
    rw [ofArgs_append_pattern first, limit.readLimit_eq]
    rfl
  | request first limit =>
    rw [ofArgs_append_pattern first, limit.readLimit_eq]
    rfl

/-- What comes of arguments is what they make. -/
theorem makes_ofArgs (args : List String) : Makes args (ofArgs args) := by
  by_cases h_flag : "-E" ∈ args
  · -- The flag that counts is the first one, and the pattern is behind it, if anything is.
    obtain ⟨before, after, rfl, first⟩ := List.eq_append_cons_of_mem h_flag
    cases after with
    | nil =>
      rw [ofArgs_append_flag first]
      exact .missingPattern first
    | cons pattern after =>
      have h_limit := setsLimit_readLimit (before ++ after)
      rw [ofArgs_append_pattern first]
      -- The pattern goes with the limit that there is, and is not told where there is an error.
      cases h_read : readLimit (before ++ after) with
      | ok maxLineChars => exact .request first (h_read ▸ h_limit)
      | error cause => exact .invalidLimit first (h_read ▸ h_limit)
  · rw [ofArgs_of_notMem h_flag]
    exact .missingFlag h_flag

/-- **What arguments make.** Arguments make one thing, and there are no others than those that make
a request or an error. -/
theorem ofArgs_eq_iff : ofArgs args = outcome ↔ Makes args outcome := by
  refine ⟨?_, Makes.ofArgs_eq⟩
  rintro rfl
  exact makes_ofArgs args

/-- The flag in front of the pattern is a flag, so the filter keeps it. -/
theorem patternFlag_mem_filter_iff : "-E" ∈ args.filter isFlag ↔ "-E" ∈ args := by
  rw [List.mem_filter]
  exact and_iff_left rfl

/-- Arguments that are no flags can be put in or left out in front of the `-E` and behind the
pattern. -/
theorem ofArgs_append_congr (first : "-E" ∉ before)
    (h_before : before'.filter isFlag = before.filter isFlag)
    (h_after : after'.filter isFlag = after.filter isFlag) (pattern : String) :
    ofArgs (before' ++ "-E" :: pattern :: after') =
      ofArgs (before ++ "-E" :: pattern :: after) := by
  -- A second `-E` in front would be left by the filter.
  have first' : "-E" ∉ before' := by
    rw [← patternFlag_mem_filter_iff, h_before, patternFlag_mem_filter_iff]
    exact first
  -- Of both sides the flags alone are looked at for a limit, and these are the same.
  have h_limit : readLimit (before' ++ after') = readLimit (before ++ after) := by
    rw [← readLimit_filter, List.filter_append, h_before, h_after, ← List.filter_append,
      readLimit_filter]
  rw [ofArgs_append_pattern first', ofArgs_append_pattern first, h_limit]

/-- Whatever the pattern is, the limit is the same, or the error is. -/
theorem map_maxLineChars_ofArgs (first : "-E" ∉ before) (pattern : String) (after : List String) :
    (ofArgs (before ++ "-E" :: pattern :: after)).map maxLineChars =
      readLimit (before ++ after) := by
  rw [ofArgs_append_pattern first]
  cases readLimit (before ++ after) <;> rfl

end Request

/-- **The flags decide, each for itself.** Arguments make what is listed in `Makes` and nothing
else. Where they have a pattern, another pattern in its place leaves the limit as it is, and the
error in it, if there is one; and so many arguments that are no flags as one likes can be put in
anywhere else, or left out, without any effect. -/
theorem ofArgs_of_flags :
    (∀ args outcome, ofArgs args = outcome ↔ Makes args outcome) ∧
      ∀ before : List String, "-E" ∉ before → ∀ (pattern : String) (after : List String),
        (∀ pattern', (ofArgs (before ++ "-E" :: pattern' :: after)).map maxLineChars =
          (ofArgs (before ++ "-E" :: pattern :: after)).map maxLineChars) ∧
        ∀ before' after', before'.filter isFlag = before.filter isFlag →
          after'.filter isFlag = after.filter isFlag →
          ofArgs (before' ++ "-E" :: pattern :: after') =
            ofArgs (before ++ "-E" :: pattern :: after) := by
  refine ⟨fun _ _ => ofArgs_eq_iff, ?_⟩
  intro before first pattern after
  refine ⟨?_, ?_⟩
  · intro pattern'
    rw [map_maxLineChars_ofArgs first, map_maxLineChars_ofArgs first]
  · intro before' after' h_before h_after
    exact ofArgs_append_congr first h_before h_after pattern

/-- A limit in the place of the pattern is a pattern, and so is a second `-E`. The limit in front of
the flag counts, be there arguments of no account around it or not; the one behind the pattern,
which is no numeral, comes too late to matter. -/
theorem ofArgs_of_flags_in_place_of_pattern :
    "-E" ∉ ["tinygrep", "--max-line-chars=7"] ∧
      ofArgs ["tinygrep", "--max-line-chars=7", "-E", "--max-line-chars=x", "--max-line-chars=y"] =
        .ok ⟨"--max-line-chars=x", 7⟩ ∧
      (ofArgs ["tinygrep", "--max-line-chars=7", "-E", "-E", "--max-line-chars=y"]).map
        maxLineChars = .ok 7 ∧
      ofArgs ["tinygrep", "-v", "--max-line-chars=7", "e", "-E", "--max-line-chars=x",
        "--max-line-chars=y", "-v"] = .ok ⟨"--max-line-chars=x", 7⟩ ∧
      ofArgs ["--max-line-chars=x", "-E"] = .error .missingPattern := by
  obtain ⟨h_makes, h_flags⟩ := ofArgs_of_flags
  have first : "-E" ∉ ["tinygrep", "--max-line-chars=7"] := by decide
  obtain ⟨h_pattern, h_others⟩ :=
    h_flags ["tinygrep", "--max-line-chars=7"] first "--max-line-chars=x" ["--max-line-chars=y"]
  have h_args : ofArgs ["tinygrep", "--max-line-chars=7", "-E", "--max-line-chars=x",
      "--max-line-chars=y"] = .ok ⟨"--max-line-chars=x", 7⟩ := by
    decide +kernel
  refine ⟨first, h_args, ?_, ?_, ?_⟩
  · refine (h_pattern "-E").trans ?_
    exact congrArg (Except.map maxLineChars) h_args
  · refine Eq.trans ?_ h_args
    exact h_others ["tinygrep", "-v", "--max-line-chars=7", "e"] ["--max-line-chars=y", "-v"]
      (by decide +kernel) (by decide +kernel)
  · refine (h_makes _ _).mpr (.missingPattern (?_ : "-E" ∉ ["--max-line-chars=x"]))
    decide

end LinePattern.Request
