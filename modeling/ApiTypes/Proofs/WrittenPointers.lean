import ApiTypes.Proofs.Pointers
import ApiTypes.Proofs.Ways
import Mathlib.Algebra.Group.Nat.Defs

/-!
# Pointers to every place

A pointer is written token by token: in each, tildes are written first, then slashes, then percent
signs.

* `Text.replaced` : a text with a word for each occurrence of a character;
* `Pointer.writtenToken`, `Pointer.ofTokens` : tokens and pointers as they are written;
  `Pointer.ofTokens_eq` : no escape is in the way of another;
* `Way.IsWritten` : the tokens of a way, keys as they are and places in decimal digits;
* `Pointer.walk_of_at?` : such tokens lead to the end of the way;
* `written_pointers` : a pointer has the tokens that it is written of, and leads where they lead.
-/

namespace ApiTypes

/-! ## Written tokens -/

/-- A text with a word for each occurrence of a character. -/
def Text.replaced (s : String) (c : Char) (word : String) : String :=
  String.ofList (s.toList.flatMap fun d => if d = c then word.toList else [d])

theorem Text.toList_replaced (s : String) (c : Char) (word : String) : (replaced s c word).toList =
    s.toList.flatMap fun d => if d = c then word.toList else [d] :=
  String.toList_ofList

namespace Pointer

/-- A token as it is written, one kind of character after another. -/
def writtenToken (token : String) : String :=
  Text.replaced (Text.replaced (Text.replaced token '~' "~0") '/' "~1") '%' "%25"

/-- A pointer as it is written: each token after a slash. -/
def ofTokens (tokens : List String) : String :=
  String.join (tokens.map fun token => "/" ++ writtenToken token)

/-- No escape holds what is replaced after it. -/
theorem toList_writtenToken (token : String) :
    (writtenToken token).toList = escape token.toList := by
  rw [writtenToken, Text.toList_replaced, Text.toList_replaced, Text.toList_replaced,
    List.flatMap_assoc, List.flatMap_assoc, escape]
  refine List.flatMap_congr fun c _ => ?_
  unfold escapeChar tildeChar
  by_cases hpercent : c = '%'
  · subst hpercent
    rfl
  by_cases htilde : c = '~'
  · subst htilde
    rfl
  by_cases hslash : c = '/'
  · subst hslash
    rfl
  simp [hpercent, htilde, hslash]

theorem ofTokens_eq (tokens : List String) : ofTokens tokens = written tokens := by
  have hchars : (ofTokens tokens).toList = tokens.flatMap fun t => '/' :: escape t.toList := by
    induction tokens with
    | nil => rfl
    | cons token rest ih =>
      rw [ofTokens, List.map_cons, String.join_cons, String.toList_append, String.toList_append,
        toList_writtenToken, List.flatMap_cons, ← ih]
      rfl
  rw [written, ← hchars, String.ofList_toList]

end Pointer

/-! ## Places in lists -/

namespace Text

theorem decimalValue?_of_isDigit {c : Char} (h : c.isDigit = true) :
    decimalValue? c = some (c.toNat - '0'.toNat) := by
  obtain ⟨hlow, hhigh⟩ := Char.isDigit_iff_toNat.1 h
  have hrow : (decide (0x30 ≤ c.toNat) && decide (c.toNat < 0x30 + 10)) = true := by
    rw [Bool.and_eq_true, decide_eq_true_iff, decide_eq_true_iff]
    exact ⟨hlow, Nat.lt_succ_of_le hhigh⟩
  have hfind : zeros.find? (fun z => z ≤ c.toNat && c.toNat < z + 10) = some 0x30 :=
    List.find?_cons_of_pos hrow
  rw [decimalValue?, hfind]
  rfl

/-- ASCII digits are read most significant first. -/
theorem natOfDecimals?_of_isDigit {cs : List Char} (h : ∀ c ∈ cs, c.isDigit = true) :
    natOfDecimals? cs = some (Nat.ofDigitChars 10 cs 0) := by
  have hfrom : ∀ acc, cs.foldl (fun acc c => do return 10 * (← acc) + (← decimalValue? c))
      (some acc) = some (Nat.ofDigitChars 10 cs acc) := by
    induction cs with
    | nil => exact fun acc => rfl
    | cons c rest ih =>
      intro acc
      obtain ⟨hc, hrest⟩ := List.forall_mem_cons.1 h
      rw [List.foldl_cons, decimalValue?_of_isDigit hc, Nat.ofDigitChars_cons, ← ih hrest]
      rfl
  exact hfrom 0

end Text

namespace Pointer

/-- A place in decimal digits leads to what stands there. -/
theorem step_item {items : List Value} {n : Nat} {u : Value} (hshort : n < 10 ^ maxDigits)
    (h : items[n]? = some u) : step (.list items) (toString n) = .ok u := by
  have htext : (toString n).toList = Nat.toDigits 10 n := Nat.toList_repr
  have hdigits : ∀ c ∈ Nat.toDigits 10 n, c.isDigit = true := fun c hc =>
    Nat.isDigit_of_mem_toDigits (by decide) (by decide) hc
  have hall : (!(Nat.toDigits 10 n).isEmpty && (Nat.toDigits 10 n).all Text.isDigit) = true := by
    rw [Bool.and_eq_true, List.all_eq_true]
    refine ⟨?_, fun c hc => ?_⟩
    · rw [Bool.not_eq_true', List.isEmpty_eq_false_iff]
      exact Nat.toDigits_ne_nil
    · rw [Text.isDigit, Text.decimalValue?_of_isDigit (hdigits c hc)]
      rfl
  have hlength : ¬ maxDigits < (Nat.toDigits 10 n).length :=
    Nat.not_lt.2 ((Nat.length_toDigits_le_iff (by decide) (by decide)).2 hshort)
  rw [step, htext, if_pos hall, Text.natOfDecimals?_of_isDigit hdigits,
    Nat.ofDigitChars_toDigits (by decide) (by decide)]
  dsimp only
  rw [if_neg hlength, h]

end Pointer

/-! ## Ways -/

/-- The token of a step: a key as it is, and a place in decimal digits. -/
def Way.Step.IsWritten : Way.Step → String → Prop
  | .key k, token => k = .text token
  | .item n, token => token = toString n

/-- The tokens of a way through mappings with texts as keys, and through lists. -/
def Way.IsWritten (way : Way) (tokens : List String) : Prop :=
  List.Forall₂ Way.Step.IsWritten way tokens

/-- The tokens of a way lead to its end. -/
theorem Pointer.walk_of_at? {v u : Value} {way : Way} {tokens : List String}
    (hway : way.IsWritten tokens) (hshort : ∀ n, .item n ∈ way → n < 10 ^ maxDigits)
    (h : v.at? way = some u) : walk v tokens = .ok u := by
  induction hway generalizing v with
  | nil => rw [walk, Option.some.inj h]
  | @cons first token rest tokens hfirst _ ih =>
    have hlater : ∀ n, .item n ∈ rest → n < 10 ^ maxDigits := fun n hn =>
      hshort n (List.mem_cons_of_mem _ hn)
    cases first with
    | key key =>
      obtain rfl : key = .text token := hfirst
      obtain ⟨ms, w, rfl, hw, h⟩ := Value.at?_key h
      have hstep : step (.map ms) token = .ok w := by
        rw [step, Members.field?, hw]
      rw [walk, hstep]
      exact ih hlater h
    | item n =>
      obtain rfl : token = toString n := hfirst
      obtain ⟨items, w, rfl, hw, h⟩ := Value.at?_item h
      rw [walk, step_item (hshort n (List.mem_cons_self ..)) hw]
      exact ih hlater h

/-- A pointer has the tokens that it is written of, whatever characters are in them, also if it has
none or empty ones. So the pointer of a way in a document leads to what stands at its end. No list
has so many items that a place in it needs more digits than a numeral may have. -/
theorem written_pointers :
    (∀ tokens, Pointer.tokens (Pointer.ofTokens tokens) = tokens) ∧
    ∀ (document node : Value) (way : Way) (tokens : List String), way.IsWritten tokens →
      (∀ n, .item n ∈ way → n < 10 ^ Pointer.maxDigits) → document.at? way = some node →
      Pointer.resolve document (Pointer.ofTokens tokens) = .ok node := by
  have htokens : ∀ tokens, Pointer.tokens (Pointer.ofTokens tokens) = tokens := by
    intro tokens
    rw [Pointer.ofTokens_eq, Pointer.tokens_written]
  refine ⟨htokens, fun document node way tokens hway hshort hnode => ?_⟩
  rw [Pointer.resolve, htokens]
  exact Pointer.walk_of_at? hway hshort hnode

example : Pointer.ofTokens ["a/b", "~1%41", "", "0"] = "/a~1b/~01%2541//0" := by decide +kernel

/-- A document of paths, in which the second parameter of an operation is at the end of a way. -/
def limitDocument : Value :=
  .map [(.text "paths", .map [(.text "/pets", .map [(.text "parameters",
    .list [.atom (.text "page"), .atom (.text "limit")])])])]

def limitWay : Way :=
  [.key (.text "paths"), .key (.text "/pets"), .key (.text "parameters"), .item 1]

theorem written_pointers_limit : limitDocument.at? limitWay = some (.atom (.text "limit")) ∧
    Pointer.ofTokens ["paths", "/pets", "parameters", "1"] = "/paths/~1pets/parameters/1" ∧
    Pointer.resolve limitDocument (Pointer.ofTokens ["paths", "/pets", "parameters", "1"]) =
      .ok (.atom (.text "limit")) := by
  have hway : limitWay.IsWritten ["paths", "/pets", "parameters", "1"] :=
    .cons rfl (.cons rfl (.cons rfl (.cons rfl .nil)))
  have hshort : ∀ n, .item n ∈ limitWay → n < 10 ^ Pointer.maxDigits := by
    intro n hn
    obtain rfl : n = 1 := by simpa [limitWay] using hn
    exact Nat.one_lt_pow (by decide) (by decide)
  have hnode : limitDocument.at? limitWay = some (.atom (.text "limit")) := rfl
  exact ⟨hnode, by decide +kernel,
    written_pointers.2 limitDocument _ limitWay _ hway hshort hnode⟩

end ApiTypes
