import ApiTypes.Document.Pointer
import ApiTypes.Proofs.Paths

/-!
# Pointers as they are written

* `Pointer.escape`, `Pointer.written` : tokens with their escapes, and the pointer made of some;
* `Pointer.decode_escape` : percent escapes are undone first, and leave those of tildes;
* `Pointer.tokens_written` : a pointer has the tokens that it is written of.
-/

namespace ApiTypes

/-! ## Characters that are read as themselves -/

namespace Utf8

theorem decodeUnits_unit (c : Char) (rest : List (UInt8 ⊕ Char)) :
    decodeUnits none (Percent.unit c :: rest) = some c :: decodeUnits none rest := by
  unfold Percent.unit
  split_ifs with h
  · have hbyte : (UInt8.ofNat c.toNat).toNat = c.toNat := by
      rw [UInt8.toNat_ofNat', Nat.mod_eq_of_lt (by omega)]
    have hlead : lead c.toNat = (some c, none) := by
      rw [lead, if_pos h, Char.ofNat_toNat]
    rw [decodeUnits, hbyte, step, start, hlead]
    rfl
  · rfl

theorem decodeLossy_units (cs : List Char) : decodeLossy (cs.map Percent.unit) = cs := by
  have hunits : decodeUnits none (cs.map Percent.unit) = cs.map some := by
    induction cs with
    | nil => rfl
    | cons c rest ih => rw [List.map_cons, decodeUnits_unit, ih, List.map_cons]
  rw [decodeLossy, hunits, List.map_map]
  exact List.map_id' cs

end Utf8

namespace Percent

theorem units_of_ne {c : Char} (h : c ≠ '%') (rest : List Char) :
    units (c :: rest) = unit c :: units rest := by
  rw [units]
  intro _ _ _ heq _
  exact h heq

theorem units_guard (rest : List Char) :
    units ('%' :: '2' :: '5' :: rest) = unit '%' :: units rest := by
  have hbyte : byte? '2' '5' = some 0x25 := by decide
  rw [units, hbyte]
  rfl

end Percent

/-! ## Tokens -/

namespace Pointer

/-- A character of a token with the escapes of tildes and slashes. -/
def tildeChar (c : Char) : List Char :=
  if c = '~' then ['~', '0'] else if c = '/' then ['~', '1'] else [c]

/-- The same with that of percent signs. -/
def escapeChar (c : Char) : List Char := if c = '%' then ['%', '2', '5'] else tildeChar c

/-- A token as it is written in a pointer. -/
def escape (token : List Char) : List Char := token.flatMap escapeChar

/-- The pointer of some tokens, each after a slash. -/
def written (tokens : List String) : String :=
  String.ofList (tokens.flatMap fun t => '/' :: escape t.toList)

theorem slash_not_mem_escape (token : List Char) : '/' ∉ escape token := by
  intro h
  obtain ⟨c, -, hc⟩ := List.mem_flatMap.1 h
  unfold escapeChar tildeChar at hc
  split_ifs at hc with hpercent htilde hslash
  · simp at hc
  · simp at hc
  · simp at hc
  · exact hslash (List.mem_singleton.1 hc).symm

theorem units_escape (token : List Char) :
    Percent.units (escape token) = (token.flatMap tildeChar).map Percent.unit := by
  induction token with
  | nil => rfl
  | cons c rest ih =>
    change Percent.units (escapeChar c ++ escape rest) = _
    rw [List.flatMap_cons, List.map_append, ← ih]
    unfold escapeChar
    split_ifs with hpercent
    · subst hpercent
      exact Percent.units_guard _
    · unfold tildeChar
      split_ifs
      · exact (Percent.units_of_ne (by decide) _).trans
          (congrArg _ (Percent.units_of_ne (by decide) _))
      · exact (Percent.units_of_ne (by decide) _).trans
          (congrArg _ (Percent.units_of_ne (by decide) _))
      · exact Percent.units_of_ne hpercent _

/-- Undoing percent escapes leaves the escapes of tildes and slashes. -/
theorem decode_escape (token : List Char) :
    Percent.decode (escape token) = token.flatMap tildeChar := by
  rw [Percent.decode, units_escape, Utf8.decodeLossy_units]

theorem untilde_tildes (token : List Char) : untilde (token.flatMap tildeChar) = token := by
  induction token with
  | nil => rfl
  | cons c rest ih =>
    rw [List.flatMap_cons]
    by_cases htilde : c = '~'
    · subst htilde
      exact congrArg ('~' :: ·) ih
    by_cases hslash : c = '/'
    · subst hslash
      exact congrArg ('/' :: ·) ih
    have hplain : tildeChar c = [c] := by rw [tildeChar, if_neg htilde, if_neg hslash]
    rw [hplain, List.singleton_append, untilde, ih]
    · exact fun _ heq => absurd heq htilde
    · exact fun _ heq => absurd heq htilde

theorem decodeToken_escape (token : List Char) : decodeToken (escape token) = token := by
  rw [decodeToken, decode_escape, untilde_tildes]

/-! ## Pointers -/

theorem cut_escape (token : List Char) (tokens : List (List Char)) :
    Text.cut '/' (escape token ++ tokens.flatMap fun t => '/' :: escape t) =
      (token :: tokens).map escape := by
  induction tokens generalizing token with
  | nil => rw [List.flatMap_nil, List.append_nil, Text.cut_of_not_mem (slash_not_mem_escape _)]; rfl
  | cons next later ih =>
    rw [List.flatMap_cons, List.cons_append, Text.cut_append_sep,
      Text.cut_of_not_mem (slash_not_mem_escape _), ih]
    rfl

/-- A pointer has the tokens that it is written of. -/
theorem tokens_written (ts : List String) : tokens (written ts) = ts := by
  unfold tokens written
  rw [String.toList_ofList]
  cases ts with
  | nil => rfl
  | cons token later =>
    have hcut := cut_escape token.toList (later.map String.toList)
    rw [List.flatMap_map] at hcut
    rw [List.flatMap_cons, List.cons_append, tokensOf, hcut]
    simp [decodeToken_escape, Function.comp_def]

end Pointer
end ApiTypes
