import ApiTypes.Proofs.Made
import ApiTypes.Proofs.MemberOrder
import ApiTypes.Proofs.NameChars

/-!
# Names of operations

* `Name.joined` : the words of a path, each with a capital, as one text;
* `Name.operation_eq`, `Name.pascal_operation` : without an id, an operation is named by its method
  and these words, and its type by the same with a capital and without the mark of `ŉ`;
* `Operation.freeName_apart` : type names that differ keep apart the names of the types of params,
  body and response;
* `operation_names` : which operations of a target have one name;
* `operation_names_lost` : two operations with one name, of which one loses its params.
-/

namespace ApiTypes

namespace Name
open Text

/-! ## Words of names -/

/-- The words of a path, each with a capital, as one text. -/
def joined (path : List Char) : List Char := (wordsFrom [] (pathText path)).flatMap capitalize

theorem wordsFrom_append {cs : List Char} (hcs : ∀ c ∈ cs, isWordChar c = true)
    (word more : List Char) : wordsFrom word (cs ++ more) = wordsFrom (cs.reverse ++ word) more := by
  induction cs generalizing word with
  | nil => rfl
  | cons c rest ih =>
    obtain ⟨hc, hrest⟩ := List.forall_mem_cons.1 hcs
    rw [List.cons_append, wordsFrom, if_pos hc, ih hrest, List.reverse_cons, List.append_assoc]
    rfl

theorem capitalize_append {cs : List Char} (hcs : cs ≠ []) (more : List Char) :
    capitalize (cs ++ more) = capitalize cs ++ more := by
  cases cs with
  | nil => exact absurd rfl hcs
  | cons c rest => simp [capitalize]

/-- The capital of a character of words is made of such characters, but for the capital of `ŉ`. -/
theorem upper_words {c : Char} (hc : isWordChar c = true) :
    (∀ d ∈ upper c, isWordChar d = true) ∨ upper c = ['ʼ', 'N'] := by
  have hall : ∀ n < 0x180, isWordChar (Char.ofNat n) = true →
      (upper (Char.ofNat n)).all isWordChar = true ∨ upper (Char.ofNat n) = ['ʼ', 'N'] := by
    decide +kernel
  have h := hall c.toNat (toNat_lt_of_wordChar hc)
  rw [Char.ofNat_toNat] at h
  exact (h hc).imp_left List.all_eq_true.1

theorem filter_words {cs : List Char} (hcs : ∀ c ∈ cs, isWordChar c = true) :
    cs.filter (· ≠ 'ʼ') = cs := by
  rw [List.filter_eq_self]
  intro c hc
  have hmark : isWordChar 'ʼ' = false := by decide
  have hne : c ≠ 'ʼ' := by
    rintro rfl
    exact absurd (hcs _ hc) (by simp [hmark])
  simpa using hne

/-- Words with capitals, joined and taken apart again, get no other capitals. The mark of `ŉ` is lost
between them. -/
theorem capitalize_joined {ws : List (List Char)} (hws : ∀ w ∈ ws, ∀ c ∈ w, isWordChar c = true)
    {word : List Char} (hword : word ≠ []) :
    (wordsFrom word (ws.flatMap capitalize)).flatMap capitalize =
      capitalize word.reverse ++ (ws.flatMap capitalize).filter (· ≠ 'ʼ') := by
  induction ws generalizing word with
  | nil => simp [wordsFrom, hword]
  | cons w ws ih =>
    obtain ⟨hw, hrow⟩ := List.forall_mem_cons.1 hws
    cases w with
    | nil => simpa [capitalize] using ih hrow hword
    | cons c rest =>
      obtain ⟨hc, hrest⟩ := List.forall_mem_cons.1 hw
      have hreverse : word.reverse ≠ [] := by simpa using hword
      rw [List.flatMap_cons, capitalize]
      rcases upper_words hc with hupper | hupper
      · have hchars : ∀ d ∈ upper c ++ rest, isWordChar d = true :=
          List.forall_mem_append.2 ⟨hupper, hrest⟩
        have hlonger : (upper c ++ rest).reverse ++ word ≠ [] :=
          List.append_ne_nil_of_right_ne_nil _ hword
        rw [wordsFrom_append hchars, ih hrow hlonger, List.reverse_append, List.reverse_reverse,
          capitalize_append hreverse, List.filter_append, filter_words hchars, List.append_assoc]
      · have hmark : isWordChar 'ʼ' = false := by decide
        have hchars : ∀ d ∈ 'N' :: rest, isWordChar d = true :=
          List.forall_mem_cons.2 ⟨by decide, hrest⟩
        have hcapital : capitalize ('N' :: rest) = 'N' :: rest := rfl
        have hnext : (wordsFrom [] (('N' :: rest) ++ ws.flatMap capitalize)).flatMap capitalize =
            'N' :: rest ++ (ws.flatMap capitalize).filter (· ≠ 'ʼ') := by
          rw [wordsFrom_append hchars, ih hrow (by simp), List.append_nil, List.reverse_reverse,
            hcapital]
        have hsplit : wordsFrom word ('ʼ' :: (('N' :: rest) ++ ws.flatMap capitalize)) =
            word.reverse :: wordsFrom [] (('N' :: rest) ++ ws.flatMap capitalize) := by
          rw [wordsFrom, if_neg (by simp [hmark]), if_neg (by simpa using hword)]
        have hkept : ('ʼ' :: (('N' :: rest) ++ ws.flatMap capitalize)).filter (· ≠ 'ʼ') =
            'N' :: rest ++ (ws.flatMap capitalize).filter (· ≠ 'ʼ') := by
          rw [List.filter_cons_of_neg (by simp), List.filter_append, filter_words hchars]
        rw [hupper]
        show (wordsFrom word ('ʼ' :: (('N' :: rest) ++ ws.flatMap capitalize))).flatMap capitalize =
          capitalize word.reverse ++
            ('ʼ' :: (('N' :: rest) ++ ws.flatMap capitalize)).filter (· ≠ 'ʼ')
        rw [hsplit, List.flatMap_cons, hnext, hkept]

/-! ## Letters in lower case -/

theorem toNat_lt_of_isLower {c : Char} (h : c.isLower = true) : c.toNat < 0x180 := by
  have hletter : c.isAlpha = true := Bool.or_eq_true_iff.2 (.inr h)
  exact toNat_lt_of_wordChar (by simp [isWordChar, Char.isAlphanum, hletter])

/-- An ASCII letter in lower case, and its capital. -/
theorem letter_cases {c : Char} (h : c.isLower = true) :
    isWordChar c = true ∧ c ≠ '_' ∧ lower c = [c] ∧
      ∃ d, d ≠ '_' ∧ upper c = [d] ∧ lower d = [c] := by
  have hall : ∀ n < 0x180, (Char.ofNat n).isLower = true →
      isWordChar (Char.ofNat n) = true ∧ Char.ofNat n ≠ '_' ∧
        lower (Char.ofNat n) = [Char.ofNat n] ∧ (Char.ofNat n).toUpper ≠ '_' ∧
        upper (Char.ofNat n) = [(Char.ofNat n).toUpper] ∧
        lower (Char.ofNat n).toUpper = [Char.ofNat n] := by decide +kernel
  have hc := hall c.toNat (toNat_lt_of_isLower h)
  rw [Char.ofNat_toNat] at hc
  obtain ⟨hword, hne, hlower, hcapital⟩ := hc h
  exact ⟨hword, hne, hlower, _, hcapital⟩

theorem lowerAll_letters {cs : List Char} (h : ∀ c ∈ cs, c.isLower = true) : lowerAll cs = cs := by
  induction cs with
  | nil => rfl
  | cons c rest ih =>
    obtain ⟨hc, hrest⟩ := List.forall_mem_cons.1 h
    obtain ⟨-, -, hlower, -⟩ := letter_cases hc
    have hrows : lowerAll (c :: rest) = lower c ++ lowerAll rest := List.flatMap_cons
    rw [hrows, hlower, ih hrest]
    rfl

section
variable {c : Char} {cs : List Char} (hc : c.isLower = true)
include hc

/-- The words of a text that starts with such a letter are not taken in lower case. -/
theorem pascalChars_letter (cs : List Char) :
    pascalChars (c :: cs) = (wordsFrom [c] cs).flatMap capitalize := by
  obtain ⟨hword, hne, -⟩ := letter_cases hc
  have hany : (c :: cs).any Char.isLower = true := by simp [hc]
  have hhead : (c :: cs).head? ≠ some '_' := by simpa using hne
  unfold pascalChars
  rw [if_neg hhead, words, if_pos hany, wordsFrom, if_pos hword]

theorem uncapitalize_letter (cs : List Char) : uncapitalize (capitalize (c :: cs)) = c :: cs := by
  obtain ⟨-, -, -, d, hd, hupper, hlower⟩ := letter_cases hc
  rw [capitalize, hupper, List.singleton_append, uncapitalize.eq_3, hlower]
  · rfl
  · rintro - - rfl
    exact absurd rfl hd
  · rintro rfl
    exact absurd rfl hd

end

/-! ## Names of methods and paths -/

/-- A method: letters in lower case, at least one. -/
structure IsMethod (m : List Char) : Prop where
  ne_nil : m ≠ []
  letters : ∀ c ∈ m, c.isLower = true

theorem IsMethod.words {m : List Char} (hm : IsMethod m) : ∀ c ∈ m, isWordChar c = true :=
  fun c hc => (letter_cases (hm.letters c hc)).1

theorem isMethod_of_mem {method : String} (h : method ∈ Operation.methods) :
    IsMethod method.toList := by
  have hall : ∀ m ∈ Operation.methods, m.toList ≠ [] ∧ m.toList.all Char.isLower = true := by decide
  obtain ⟨hne, hlower⟩ := hall method h
  exact ⟨hne, List.all_eq_true.1 hlower⟩

theorem IsMethod.exists_cons {m : List Char} (hm : IsMethod m) :
    ∃ c rest, m = c :: rest ∧ c.isLower = true := by
  obtain ⟨c, rest, rfl⟩ := List.exists_cons_of_ne_nil hm.ne_nil
  exact ⟨c, rest, rfl, hm.letters c (List.mem_cons_self ..)⟩

section
variable {method : String} (hmethod : method ∈ Operation.methods) (path : String)
include hmethod

/-- Without an id, an operation is named by its method and the words of its path. -/
theorem operation_eq : operation method path = method ++ String.ofList (joined path.toList) := by
  have hm := isMethod_of_mem hmethod
  obtain ⟨c, rest, hcons, hc⟩ := hm.exists_cons
  have hhyphen : isWordChar '-' = false := by decide
  have hwords : pascalChars (method.toList ++ '-' :: pathText path.toList) =
      capitalize (method.toList ++ joined path.toList) := by
    have hrest : ∀ d ∈ rest, isWordChar d = true := fun d hd =>
      hm.words d (hcons ▸ List.mem_cons_of_mem c hd)
    have hcut : wordsFrom [c] (rest ++ '-' :: pathText path.toList) =
        method.toList :: wordsFrom [] (pathText path.toList) := by
      rw [wordsFrom_append hrest, wordsFrom, if_neg (by simp [hhyphen]), if_neg (by simp), hcons,
        List.reverse_append, List.reverse_reverse]
      rfl
    rw [capitalize_append hm.ne_nil, hcons, List.cons_append, pascalChars_letter hc, hcut,
      List.flatMap_cons, hcons]
    rfl
  have htext : method.toList ++ joined path.toList = c :: (rest ++ joined path.toList) := by
    rw [hcons, List.cons_append]
  apply String.toList_injective
  rw [operation, camel, String.toList_ofList, String.toList_ofList, lowerAll_letters hm.letters,
    hwords, htext, uncapitalize_letter hc, ← htext, String.toList_append, String.toList_ofList]

/-- The type name of such an operation has the same words; the mark of `ŉ` is lost. -/
theorem pascal_operation : (pascal (operation method path)).toList =
    capitalize method.toList ++ (joined path.toList).filter (· ≠ 'ʼ') := by
  have hm := isMethod_of_mem hmethod
  obtain ⟨c, rest, hcons, hc⟩ := hm.exists_cons
  have hrest : ∀ d ∈ rest, isWordChar d = true := fun d hd =>
    hm.words d (hcons ▸ List.mem_cons_of_mem c hd)
  have hwords : ∀ w ∈ wordsFrom [] (pathText path.toList), ∀ d ∈ w, isWordChar d = true :=
    wordsFrom_chars (by simp)
  have hreverse : (rest.reverse ++ [c]).reverse = method.toList := by
    rw [List.reverse_append, List.reverse_reverse, hcons]
    rfl
  rw [pascal, operation_eq hmethod, String.toList_ofList, String.toList_append,
    String.toList_ofList, hcons, List.cons_append, pascalChars_letter hc, wordsFrom_append hrest,
    joined, capitalize_joined hwords (by simp), hreverse, hcons]

end

/-- No method starts with another, with a capital or without. -/
theorem method_apart {m m' : String} (hm : m ∈ Operation.methods) (hm' : m' ∈ Operation.methods) :
    (m.toList.isPrefixOf m'.toList = true → m = m') ∧
      ((capitalize m.toList).isPrefixOf (capitalize m'.toList) = true → m = m') := by
  have hall : ∀ m ∈ Operation.methods, ∀ m' ∈ Operation.methods,
      (m.toList.isPrefixOf m'.toList = true → m = m') ∧
        ((capitalize m.toList).isPrefixOf (capitalize m'.toList) = true → m = m') := by
    decide +kernel
  exact hall m hm m' hm'

/-- Texts of which none starts with another are found again at the start of longer ones. -/
theorem append_apart {α β : Type} [BEq β] [LawfulBEq β] {f : α → List β} {a b : α} {s t : List β}
    (hab : (f a).isPrefixOf (f b) = true → a = b)
    (hba : (f b).isPrefixOf (f a) = true → b = a) : f a ++ s = f b ++ t ↔ a = b ∧ s = t := by
  constructor
  · intro h
    have heq : a = b := by
      have hleft : f a <+: f b ++ t := h ▸ List.prefix_append ..
      rcases List.prefix_or_prefix_of_prefix hleft (List.prefix_append ..) with hle | hle
      · exact hab (List.isPrefixOf_iff_prefix.2 hle)
      · exact (hba (List.isPrefixOf_iff_prefix.2 hle)).symm
    subst heq
    exact ⟨rfl, List.append_cancel_left h⟩
  · rintro ⟨rfl, rfl⟩
    rfl

theorem operation_inj {m m' : String} (hm : m ∈ Operation.methods) (hm' : m' ∈ Operation.methods)
    (path path' : String) :
    operation m path = operation m' path' ↔ m = m' ∧ joined path.toList = joined path'.toList := by
  rw [operation_eq hm, operation_eq hm', ← String.toList_inj, String.toList_append,
    String.toList_append, String.toList_ofList, String.toList_ofList]
  exact append_apart (method_apart hm hm').1 (method_apart hm' hm).1

theorem pascal_operation_inj {m m' : String} (hm : m ∈ Operation.methods)
    (hm' : m' ∈ Operation.methods) (path path' : String) :
    pascal (operation m path) = pascal (operation m' path') ↔
      m = m' ∧ (joined path.toList).filter (· ≠ 'ʼ') = (joined path'.toList).filter (· ≠ 'ʼ') := by
  rw [← String.toList_inj, pascal_operation hm, pascal_operation hm']
  exact append_apart (f := fun m : String => capitalize m.toList) (method_apart hm hm').2
    (method_apart hm' hm).2

end Name

namespace Operation

/-! ## Names of params, bodies and responses -/

/-- The endings of such names. -/
def partEndings : List String := parts.flatMap fun part => [part, part ++ "Property"]

theorem freeName_ending (claimed : List String) (typeName : String) {part : String}
    (hpart : part ∈ parts) :
    ∃ ending ∈ partEndings, freeName claimed (typeName ++ part) = typeName ++ ending := by
  unfold freeName
  split
  · refine ⟨part ++ "Property", List.mem_flatMap.2 ⟨part, hpart, by simp⟩, ?_⟩
    rw [String.append_assoc]
  · exact ⟨part, List.mem_flatMap.2 ⟨part, hpart, by simp⟩, rfl⟩

/-- No ending ends in another. -/
theorem ending_apart {e e' : String} (he : e ∈ partEndings) (he' : e' ∈ partEndings) :
    e.toList.reverse.isPrefixOf e'.toList.reverse = true → e = e' := by
  have hall : ∀ e ∈ partEndings, ∀ e' ∈ partEndings,
      e.toList.reverse.isPrefixOf e'.toList.reverse = true → e = e' := by decide +kernel
  exact hall e he e' he'

/-- Type names that differ keep apart the names of params, bodies and responses. -/
theorem freeName_apart {claimed claimed' : List String} {op op' : Operation}
    (h : op.typeName ≠ op'.typeName) :
    List.Disjoint (partNames claimed op) (partNames claimed' op') := by
  intro n hn hn'
  obtain ⟨part, hpart, rfl⟩ := List.mem_map.1 hn
  obtain ⟨part', hpart', heq⟩ := List.mem_map.1 hn'
  obtain ⟨e, he, hname⟩ := freeName_ending claimed op.typeName hpart
  obtain ⟨e', he', hname'⟩ := freeName_ending claimed' op'.typeName hpart'
  rw [hname, hname', ← String.toList_inj, String.toList_append, String.toList_append,
    ← List.reverse_inj, List.reverse_append, List.reverse_append] at heq
  obtain ⟨-, hreverse⟩ := (Name.append_apart (f := fun e : String => e.toList.reverse)
    (ending_apart he' he) (ending_apart he he')).1 heq
  exact h (String.toList_inj.1 (List.reverse_inj.1 hreverse.symm))

/-! ## Names of the operations of a target -/

/-- Whether an operation has no id that counts. -/
def Written.hasNoId (w : Written) : Bool :=
  match w.operation with
  | .map ms => ((Members.field? ms "operationId").filter Value.isTrue).isNone
  | _ => true

/-- The words of the path of an operation, each with a capital, as one text. -/
def joined (op : Operation) : List Char := Name.joined op.path.plain.toList

/-- A declaration for the params, the body or the response of an operation. -/
def IsPart (ctx : Context) (op : Operation) (d : Declaration) : Prop :=
  d ∈ op.declarations ∧ ∃ claimed, Components.names ctx = .ok claimed ∧ d.name ∈ partNames claimed op

variable {ctx : Context}

theorem method_of_written {ws : List Written} (hws : written ctx = .ok ws) {w : Written}
    (hw : w ∈ ws) : w.method ∈ methods := by
  unfold written at hws
  obtain ⟨value, -, hws⟩ := Except.bind_eq_ok.1 hws
  obtain ⟨paths, -, hws⟩ := Except.bind_eq_ok.1 hws
  obtain ⟨sorted, -, hws⟩ := Except.bind_eq_ok.1 hws
  obtain rfl := by simpa [pure, Except.pure] using hws
  obtain ⟨⟨path, pathItem⟩, -, hw⟩ := List.mem_flatMap.1 hw
  unfold ofPathItem at hw
  split at hw
  · obtain ⟨method, hmethod, hw⟩ := List.mem_filterMap.1 hw
    obtain ⟨operation, -, rfl⟩ := Option.map_eq_some_iff.1 hw
    exact hmethod
  · cases hw

/-- Without an id the path is a text, and makes the name. -/
theorem name_of_hasNoId {w : Written} (hid : w.hasNoId = true) {op : Operation}
    (hop : (make ctx w.method w.path w.pathItem w.operation).outcome = .ok op) :
    op.method = w.method ∧ op.name = Name.operation w.method op.path.plain := by
  obtain ⟨ms, hms, s, -⟩ := make_ok hop
  have hname := s.name_ok
  have hnone : (Members.field? ms "operationId").filter Value.isTrue = none := by
    rw [Written.hasNoId, hms] at hid
    exact Option.isNone_iff_eq_none.1 hid
  unfold nameOf at hname
  rw [hnone, ← s.path_eq] at hname
  refine ⟨s.method_eq, ?_⟩
  cases hpath : op.path with
  | text path =>
    rw [hpath] at hname
    exact (Except.ok.inj hname).symm
  | _ => simp [hpath, Form.fail] at hname

theorem paramsInterface_named {name : String} {query : List Parameter} {r : Resolved}
    (h : (paramsInterface ctx name query).outcome = .ok r) :
    r.type = .name name ∧ ∃ d ∈ r.declarations, d.name = name := by
  obtain ⟨names, types, members, -, -, -, rfl⟩ := paramsInterface_ok h
  exact ⟨rfl, _, List.mem_append_right _ (List.mem_singleton_self _), rfl⟩

/-- The params of an operation are the name of a declaration of its own. -/
theorem isPart_params {w : Written} {op : Operation}
    (hop : (make ctx w.method w.path w.pathItem w.operation).outcome = .ok op) {t : TypeExpr}
    (ht : op.params = some t) : ∃ d, IsPart ctx op d ∧ t = .name d.name := by
  obtain ⟨ms, -, s, -, hdeclarations⟩ := make_ok hop
  obtain ⟨r, hr, rfl⟩ := Option.map_eq_some_iff.1 (s.params_eq.symm.trans ht)
  have hparams := paramsOf_ok.1 s.params_ok
  split at hparams
  · rw [hparams] at hr
    cases hr
  · obtain ⟨q, hq, hsome⟩ := hparams
    obtain rfl : q = r := Option.some.inj (hsome.symm.trans hr)
    obtain ⟨htype, d, hd, hname⟩ := paramsInterface_named hq
    have hall : q ∈ s.all := by simp [Steps.all, hr]
    refine ⟨d, ⟨?_, s.claimed, s.claimed_ok, ?_⟩, hname ▸ htype⟩
    · rw [hdeclarations]
      exact List.mem_flatMap.2 ⟨q, hall, hd⟩
    · exact hname ▸ List.mem_map.2 ⟨"Params", List.mem_cons_self .., rfl⟩

end Operation

/-- Two operations of a target without ids have one name just if they have one method and the words
of their paths join to one text, and one type name just if these texts agree up to the mark of `ŉ`.
Where the type names differ, no declaration for the params, the body or the response of one has the
name of such a declaration of the other. -/
theorem operation_names {ctx : Context} {ws : List Operation.Written} {ops : List Operation}
    (hws : Operation.written ctx = .ok ws) (hids : ∀ w ∈ ws, w.hasNoId = true)
    (hops : (Operation.ofTarget ctx).outcome = .ok ops) :
    ∀ op ∈ ops, (∀ t, op.params = some t → ∃ d, op.IsPart ctx d ∧ t = .name d.name) ∧
      ∀ op' ∈ ops,
        (op.name = op'.name ↔ op.method = op'.method ∧ op.joined = op'.joined) ∧
        (op.typeName = op'.typeName ↔ op.method = op'.method ∧
          op.joined.filter (· ≠ 'ʼ') = op'.joined.filter (· ≠ 'ʼ')) ∧
        (op.typeName ≠ op'.typeName →
          ∀ d d', op.IsPart ctx d → op'.IsPart ctx d' → d.name ≠ d'.name) := by
  obtain ⟨ws', hws', hmade⟩ := Operation.ofTarget_ok.1 hops
  obtain rfl : ws = ws' := Except.ok.inj (hws.symm.trans hws')
  have hnames : ∀ op ∈ ops, op.method ∈ Operation.methods ∧
      op.name = Name.operation op.method op.path.plain := by
    intro op hop
    obtain ⟨w, hw, hok⟩ := exists_left_of_forall₂ hmade hop
    obtain ⟨hmethod, hname⟩ := Operation.name_of_hasNoId (hids w hw) hok
    exact ⟨hmethod ▸ Operation.method_of_written hws hw, hmethod ▸ hname⟩
  intro op hop
  obtain ⟨hm, hname⟩ := hnames op hop
  constructor
  · intro t ht
    obtain ⟨w, -, hok⟩ := exists_left_of_forall₂ hmade hop
    exact Operation.isPart_params hok ht
  · intro op' hop'
    obtain ⟨hm', hname'⟩ := hnames op' hop'
    refine ⟨?_, ?_, ?_⟩
    · rw [hname, hname']
      exact Name.operation_inj hm hm' _ _
    · rw [Operation.typeName, Operation.typeName, hname, hname']
      exact Name.pascal_operation_inj hm hm' _ _
    · rintro hne d d' ⟨-, claimed, -, hd⟩ ⟨-, claimed', -, hd'⟩ heq
      exact Operation.freeName_apart hne hd (heq ▸ hd')

/-- A path whose operation has one query parameter. -/
def queryPath (path query : String) : Atom × Value :=
  (.text path, parameterItem [(.text "name", .text query)])

/-- A path, and the path of one of what it lists. -/
def nestedPaths : Members := [queryPath "/pets" "limit", queryPath "/pets/\x7bid\x7d" "expand"]

theorem operation_names_nested :
    ∃ ops, (Operation.ofTarget (pathsContext nestedPaths)).outcome = .ok ops ∧
      ∃ op ∈ ops, ∃ op' ∈ ops, op.name ≠ op'.name ∧ op.typeName ≠ op'.typeName ∧
        ∃ d d', op.IsPart (pathsContext nestedPaths) d ∧ op'.IsPart (pathsContext nestedPaths) d' ∧
          d.name ≠ d'.name := by
  have hws : Operation.written (pathsContext nestedPaths) =
      .ok (nestedPaths.flatMap fun m => Operation.ofPathItem m.1 m.2) :=
    written_of_pairwise (by decide) (by decide)
  obtain ⟨ops, hops, hmade⟩ := Except.exists_of_any
    (x := (Operation.ofTarget (pathsContext nestedPaths)).outcome)
    (p := fun ops => decide (∃ op ∈ ops, ∃ op' ∈ ops, op.params.isSome = true ∧
      op'.params.isSome = true ∧ op.joined.filter (· ≠ 'ʼ') ≠ op'.joined.filter (· ≠ 'ʼ')))
    (by rw [ofTarget_of_pairwise (by decide) (by decide)]; decide +kernel)
  obtain ⟨op, hop, op', hop', hparams, hparams', hapart⟩ := of_decide_eq_true hmade
  obtain ⟨t, ht⟩ := Option.isSome_iff_exists.1 hparams
  obtain ⟨t', ht'⟩ := Option.isSome_iff_exists.1 hparams'
  have hnames := operation_names hws (by decide +kernel) hops
  obtain ⟨d, hd, -⟩ := (hnames op hop).1 t ht
  obtain ⟨d', hd', -⟩ := (hnames op' hop').1 t' ht'
  obtain ⟨hname, htype, hparts⟩ := (hnames op hop).2 op' hop'
  have hne : op.typeName ≠ op'.typeName := fun h => hapart (htype.1 h).2
  refine ⟨ops, hops, op, hop, op', hop', fun h => ?_, hne, d, d', hd, hd', hparts hne d d' hd hd'⟩
  exact hne (congrArg Name.pascal h)

/-- Two paths of which one has a parameter where the other has a word. -/
def bracedPaths : Members := [queryPath "/pets/id" "limit", queryPath "/pets/\x7bid\x7d" "expand"]

/-- Their operations get one name, and the params of the second are lost. -/
theorem operation_names_lost :
    ∃ ops, (Operation.ofTarget (pathsContext bracedPaths)).outcome = .ok ops ∧
      ∃ op ∈ ops, ∃ op' ∈ ops, op.path ≠ op'.path ∧ op.name = op'.name ∧
        op.typeName = op'.typeName ∧ ∃ d ∈ op'.declarations,
          op'.params.map (·.render) = some d.name ∧
          ∀ k ∈ firstOfName Declaration.name (ops.flatMap Operation.declarations),
            k.model.render ≠ d.model.render := by
  obtain ⟨ops, hops, hlost⟩ := Except.exists_of_any
    (x := (Operation.ofTarget (pathsContext bracedPaths)).outcome)
    (p := fun ops => decide (∃ op ∈ ops, ∃ op' ∈ ops, op.path ≠ op'.path ∧ op.name = op'.name ∧
      op.typeName = op'.typeName ∧ ∃ d ∈ op'.declarations,
        op'.params.map (·.render) = some d.name ∧
        ∀ k ∈ firstOfName Declaration.name (ops.flatMap Operation.declarations),
          k.model.render ≠ d.model.render))
    (by rw [ofTarget_of_pairwise (by decide) (by decide)]; decide +kernel)
  exact ⟨ops, hops, of_decide_eq_true hlost⟩

end ApiTypes
