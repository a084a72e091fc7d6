import LinePattern.Pattern.Search
import Mathlib.Computability.Language
import Mathlib.Data.List.Basic

/-!
# Languages

The language of a token is the set of texts that it takes, and the language of a pattern is what its
tokens take one behind the other. None of this knows about backtracking: it says what there is to be
found, where `Pattern.search` finds it.

* `Atom.chars`, `Token.language`, `Pattern.language`: the chars of an atom, the texts of a token,
  the texts of a pattern.
* `Pattern.OccursIn`: some part of a line is a text of the pattern, and it touches the ends of the
  line that the pattern is anchored to.

Main statement:

* `Token.thenMatches_iff`: a token that is no anchor takes exactly the texts of its language.
-/

namespace LinePattern

/-- The chars that an atom stands for. -/
def Atom.chars : Atom → Set Char
  | literal c => {c}
  | digit => {c | '0' ≤ c ∧ c ≤ '9'}
  | word => {c | 'A' ≤ c ∧ c ≤ 'Z' ∨ 'a' ≤ c ∧ c ≤ 'z' ∨ '0' ≤ c ∧ c ≤ '9' ∨ c = '_'}
  | wildcard => Set.univ

/-- The chars of an atom are those that it accepts. The ranges that the language is written with are
the tests of the library on letters and digits. -/
theorem Atom.mem_chars_iff {a : Atom} {c : Char} : c ∈ a.chars ↔ a.accepts c = true := by
  cases a with
  | literal l => simp [chars]
  | digit => simp [chars, accepts, Char.isDigit, Char.le_def]
  | word =>
    -- The bounds of the letters and digits, which `simp` does not look up.
    have h_upper : c.isUpper = decide ('A' ≤ c ∧ c ≤ 'Z') := rfl
    have h_lower : c.isLower = (decide ('a' ≤ c) && decide (c ≤ 'z')) := rfl
    have h_digit : c.isDigit = (decide ('0' ≤ c) && decide (c ≤ '9')) := rfl
    have h_alphanum : c.isAlphanum = ((c.isUpper || c.isLower) || c.isDigit) := rfl
    simp [chars, accepts, h_alphanum, h_upper, h_lower, h_digit, or_assoc]
  | wildcard => simp [chars]

/-- The texts that a token takes. An anchor takes no chars. -/
def Token.language : Token → Language Char
  | lineStart => 1
  | lineEnd => 1
  | atom a .one => {w | ∃ c ∈ a.chars, w = [c]}
  | atom a .optional => {w | w = [] ∨ ∃ c ∈ a.chars, w = [c]}
  | atom a .oneOrMore => {w | w ≠ [] ∧ ∀ c ∈ w, c ∈ a.chars}
  | charClass .positive members => {w | ∃ c ∈ members, w = [c]}
  | charClass .negative members => {w | ∃ c ∉ members, w = [c]}
  | group options => {w | w ∈ options}

/-- A word is taken where the line starts with it. -/
theorem wordThen_iff {word : List Char} {k : List Char → Bool} {line : List Char} :
    wordThen word k line = true ↔ ∃ rest, line = word ++ rest ∧ k rest = true := by
  simp only [eq_comm (a := line), ← List.isPrefixOf?_eq_some_iff_append_eq]
  unfold wordThen
  cases word.isPrefixOf? line <;> simp

namespace Token

variable {w : List Char}

/-! Membership in the language of a token, one lemma for each way in which a token takes chars. They
hold by definition, and keep the set-builder notation out of the proofs. -/

/-- A single accepted char, and nothing else. -/
theorem mem_language_one {a : Atom} : w ∈ (atom a .one).language ↔ ∃ c ∈ a.chars, w = [c] := Iff.rfl

/-- An accepted char, or no char at all. -/
theorem mem_language_optional {a : Atom} :
    w ∈ (atom a .optional).language ↔ w = [] ∨ ∃ c ∈ a.chars, w = [c] := Iff.rfl

/-- Accepted chars only, of which there is at least one. -/
theorem mem_language_oneOrMore {a : Atom} :
    w ∈ (atom a .oneOrMore).language ↔ w ≠ [] ∧ ∀ c ∈ w, c ∈ a.chars := Iff.rfl

/-- A single char that is listed. -/
theorem mem_language_positive {members : List Char} :
    w ∈ (charClass .positive members).language ↔ ∃ c ∈ members, w = [c] := Iff.rfl

/-- A single char that is not listed. -/
theorem mem_language_negative {members : List Char} :
    w ∈ (charClass .negative members).language ↔ ∃ c ∉ members, w = [c] := Iff.rfl

/-- One of the options, char by char. -/
theorem mem_language_group {options : List (List Char)} :
    w ∈ (group options).language ↔ w ∈ options := Iff.rfl

/-- Whether the token stands for an end of the line. -/
def IsAnchor (t : Token) : Prop := t = lineStart ∨ t = lineEnd

instance : DecidablePred IsAnchor := fun t =>
  inferInstanceAs (Decidable (t = lineStart ∨ t = lineEnd))

/-- A language of single chars is what `oneThen` takes. -/
theorem oneThen_iff_of_mem_iff {p : Char → Bool} {k : List Char → Bool} {line : List Char}
    {l : Language Char} (hl : ∀ w, w ∈ l ↔ ∃ c, p c = true ∧ w = [c]) :
    oneThen p k line = true ↔ ∃ w ∈ l, ∃ rest, line = w ++ rest ∧ k rest = true := by
  simp only [oneThen_iff, hl]
  constructor
  · rintro ⟨c, rest, rfl, hc, hk⟩
    exact ⟨[c], ⟨c, hc, rfl⟩, rest, rfl, hk⟩
  · rintro ⟨_, ⟨c, hc, rfl⟩, rest, rfl, hk⟩
    exact ⟨c, rest, rfl, hc, hk⟩

/-- A token takes the texts of its language. What it hands on is what is left of the line behind one
of them. -/
theorem thenMatches_iff {t : Token} (ht : ¬ t.IsAnchor) {k : List Char → Bool} {line : List Char} :
    t.thenMatches k line = true ↔ ∃ w ∈ t.language, ∃ rest, line = w ++ rest ∧ k rest = true := by
  cases t with
  | lineStart => exact absurd (.inl rfl) ht
  | lineEnd => exact absurd (.inr rfl) ht
  | atom a q =>
    cases q with
    | one =>
      exact oneThen_iff_of_mem_iff fun w => by simp only [mem_language_one, Atom.mem_chars_iff]
    | optional =>
      -- Beside the empty text the same texts are taken as by the atom alone.
      have h : oneThen a.accepts k line = true ↔
          ∃ w ∈ (atom a .one).language, ∃ rest, line = w ++ rest ∧ k rest = true :=
        oneThen_iff_of_mem_iff fun w => by simp only [mem_language_one, Atom.mem_chars_iff]
      simp only [thenMatches, Bool.or_eq_true, h, mem_language_one, mem_language_optional]
      constructor
      · rintro (hk | ⟨w, hw, hrest⟩)
        · exact ⟨[], .inl rfl, line, rfl, hk⟩
        · exact ⟨w, .inr hw, hrest⟩
      · rintro ⟨w, rfl | hw, rest, hline, hk⟩
        · exact .inl (hline ▸ hk)
        · exact .inr ⟨w, hw, rest, hline, hk⟩
    | oneOrMore =>
      -- Both sides say the same of the run, and group what they say in two ways.
      simp only [thenMatches, runThen_iff, mem_language_oneOrMore, Atom.mem_chars_iff]
      constructor
      · rintro ⟨w, rest, hline, hne, hw, hk⟩
        exact ⟨w, ⟨hne, hw⟩, rest, hline, hk⟩
      · rintro ⟨w, ⟨hne, hw⟩, rest, hline, hk⟩
        exact ⟨w, rest, hline, hne, hw, hk⟩
  | charClass polarity members =>
    cases polarity with
    | positive => exact oneThen_iff_of_mem_iff fun w => by simp [mem_language_positive]
    | negative => exact oneThen_iff_of_mem_iff fun w => by simp [mem_language_negative]
  | group options =>
    simp only [thenMatches, List.any_eq_true, wordThen_iff, mem_language_group]

end Token

namespace Pattern

/-- The texts that a pattern takes: one of each token, one behind the other. -/
def language (p : Pattern) : Language Char := (p.map Token.language).prod

/-- Some part of the line is a text of the pattern. Where the pattern starts with the start of the
line there is nothing in front of that part, and where it ends with the end of the line there is
nothing behind it. -/
def OccursIn (p : Pattern) (line : List Char) : Prop :=
  ∃ before found after, line = before ++ found ++ after ∧ found ∈ p.language ∧
    (p.head? = some .lineStart → before = []) ∧ (p.getLast? = some .lineEnd → after = [])

end Pattern

end LinePattern
