import Mathlib.Algebra.Group.Nat.Defs
import Mathlib.Data.List.TakeDrop
import TokenAudit.ContractType.Reader
import TokenAudit.Proofs.Number.Decimal
import TokenAudit.Proofs.World

/-!
# Written types

A type whose names show something and hold no punctuation, and whose lengths fit a word, is read back from its text,
every name without the qualifiers that reading drops.
-/

namespace TokenAudit.ContractType

open List Text Number

variable {cs rest front digits : List Char} {token word : String} {c : Char} {n fuel : Nat} {t : ContractType}

mutual

def names : ContractType → List String
  | .named n => [n]
  | .mapping key value => names key ++ names value
  | .array item _ => names item
  | .tuple items => allNames items

def allNames : List ContractType → List String
  | [] => []
  | t :: rest => names t ++ allNames rest

end

def settle (n : String) : String := String.ofList (plainName (trim n.toList))

mutual

def settled : ContractType → ContractType
  | .named n => .named (settle n)
  | .mapping key value => .mapping (settled key) (settled value)
  | .array item length => .array (settled item) length
  | .tuple items => .tuple (allSettled items)

def allSettled : List ContractType → List ContractType
  | [] => []
  | t :: rest => settled t :: allSettled rest

end

def Legible (n : String) : Prop := trim n.toList ≠ [] ∧ ∀ c ∈ n.toList, endsName c = false

mutual

def Readable : ContractType → Prop
  | .named n => Legible n
  | .mapping key value => Readable key ∧ Readable value
  | .array item length => Readable item ∧ ∀ n ∈ length, fitsWord n = true
  | .tuple items => AllReadable items

def AllReadable : List ContractType → Prop
  | [] => True
  | t :: rest => Readable t ∧ AllReadable rest

end

mutual

theorem settled_eq_self_iff (t : ContractType) : t.settled = t ↔ ∀ n ∈ t.names, settle n = n := by
  cases t with
  | named n => simp [settled, names]
  | mapping key value =>
    simp [settled, names, settled_eq_self_iff key, settled_eq_self_iff value, or_imp, forall_and]
  | array item length => simp [settled, names, settled_eq_self_iff item]
  | tuple items => simp [settled, names, allSettled_eq_self_iff items]

theorem allSettled_eq_self_iff (items : List ContractType) :
    allSettled items = items ↔ ∀ n ∈ allNames items, settle n = n := by
  cases items with
  | nil => simp [allSettled, allNames]
  | cons t rest =>
    simp [allSettled, allNames, settled_eq_self_iff t, allSettled_eq_self_iff rest, or_imp, forall_and]

end

theorem after?_eq_some_iff {word : List Char} : after? word cs = some rest ↔ cs = word ++ rest := by
  induction word generalizing cs with
  | nil => simp [after?]
  | cons w ws ih =>
    cases cs with
    | nil => simp [after?]
    | cons c cs =>
      by_cases same : w = c
      · simp [after?, same, ih]
      · simp [after?, same, Ne.symm same]

theorem eat_eq_some_iff : eat token cs = some rest ↔ dropBlanks cs = token.toList ++ rest :=
  after?_eq_some_iff

theorem eat_dropBlanks (token : String) (cs : List Char) : eat token (dropBlanks cs) = eat token cs := by
  rw [eat, dropBlanks_dropBlanks, eat]

theorem eat_other {head : Char} {more : List Char} (starts : token.toList = head :: more)
    (solid : isBlank c = false) (apart : head ≠ c) : eat token (c :: cs) = none := by
  rw [eat, dropBlanks_cons solid, starts, after?, if_neg apart]

theorem expect_of_eat (eaten : eat token cs = some rest) (expected : Expected) :
    expect token expected cs = .ok rest := by
  rw [expect, eaten]

theorem endsName_of_isBlank (blank : isBlank c = true) : endsName c = false := by
  have apart (d : Char) (solid : isBlank d = false) : c ≠ d := by
    rintro rfl
    rw [blank] at solid
    cases solid
  simp [endsName, apart '[' rfl, apart ']' rfl, apart ',' rfl, apart '(' rfl, apart ')' rfl, apart '=' rfl]

/-- What can stand behind a type: nothing but blanks, or blanks and one of these characters. -/
def Boundary (rest : List Char) : Prop :=
  dropBlanks rest = [] ∨ ∃ c more, dropBlanks rest = c :: more ∧ c ∈ ['[', ',', ')', '=']

theorem boundary_nil : Boundary [] := .inl rfl

theorem boundary_cons (mark : c ∈ ['[', ',', ')', '=']) (rest : List Char) : Boundary (c :: rest) := by
  refine .inr ⟨c, rest, dropBlanks_cons ?_, mark⟩
  simp only [mem_cons, not_mem_nil, or_false] at mark
  rcases mark with rfl | rfl | rfl | rfl <;> rfl

theorem boundary_bracket (rest : List Char) : Boundary ('[' :: rest) := boundary_cons (by decide) rest

theorem boundary_arrow (rest : List Char) : Boundary (' ' :: '=' :: rest) := by
  rw [Boundary, dropBlanks_blank rfl]
  exact boundary_cons (by decide) rest

theorem span_name {n : List Char} (legible : ∀ c ∈ n, endsName c = false) (boundary : Boundary rest) :
    (n ++ rest).span (fun c => !endsName c) = (n ++ rest.takeWhile isBlank, dropBlanks rest) := by
  have within : ∀ c ∈ n ++ rest.takeWhile isBlank, (!endsName c) = true := by
    intro c among
    rcases mem_append.mp among with among | among
    · simp [legible c among]
    · simp [endsName_of_isBlank (mem_takeWhile_imp among)]
  have stops : (dropBlanks rest).takeWhile (fun c => !endsName c) = [] ∧
      (dropBlanks rest).dropWhile (fun c => !endsName c) = dropBlanks rest := by
    rcases boundary with blank | ⟨c, more, left, mark⟩
    · simp [blank]
    · have ends : endsName c = true := by
        simp only [mem_cons, not_mem_nil, or_false] at mark
        rcases mark with rfl | rfl | rfl | rfl <;> rfl
      simp [left, ends]
  have whole : n ++ rest = (n ++ rest.takeWhile isBlank) ++ dropBlanks rest := by
    rw [append_assoc, dropBlanks, takeWhile_append_dropWhile]
  rw [span_eq_takeWhile_dropWhile, whole, takeWhile_append_of_pos within, dropWhile_append_of_pos within,
    stops.1, stops.2, append_nil]

theorem eat_name {n : List Char} (visible : dropBlanks n ≠ []) (legible : ∀ c ∈ n, endsName c = false)
    (boundary : Boundary rest) (opens : token.toList = front ++ ['('])
    (plain : ∀ c ∈ front, endsName c = false) : eat token (n ++ rest) = none := by
  cases eaten : eat token (n ++ rest) with
  | none => rfl
  | some more =>
    -- both sides up to their first punctuation: behind the name, a parenthesis would stand
    have whole : dropBlanks n ++ rest = front ++ '(' :: more := by
      rw [← dropBlanks_append visible, eat_eq_some_iff.mp eaten, opens, append_assoc, singleton_append]
    have name := span_name (fun c among => legible c (mem_of_mem_dropBlanks among)) boundary
    rw [whole, span_eq_takeWhile_dropWhile] at name
    have ends : (front ++ '(' :: more).dropWhile (fun c => !endsName c) = '(' :: more :=
      dropWhile_append_of_pos fun c among => by simp [plain c among]
    have left : dropBlanks rest = '(' :: more := (congrArg Prod.snd name).symm.trans ends
    rcases boundary with blank | ⟨c, _, found, mark⟩
    · cases blank.symm.trans left
    · cases found.symm.trans left
      simp at mark

def suffixed (t : ContractType) (cs : List Char) : Except Stop (ContractType × List Char) :=
  readSuffixes cs.length t cs

theorem length_of_eat (eaten : eat token cs = some rest) : rest.length + token.toList.length ≤ cs.length := by
  have shorter : (dropBlanks cs).length ≤ cs.length := (dropWhile_sublist isBlank).length_le
  rw [eat_eq_some_iff.mp eaten, length_append] at shorter
  omega

theorem eat_of_expect {expected : Expected} (expects : expect token expected cs = .ok rest) :
    eat token cs = some rest := by
  unfold expect at expects
  split at expects
  · cases expects
    assumption
  · cases expects

theorem readSuffixes_enough {fuel' : Nat} (enough : cs.length ≤ fuel) (enough' : cs.length ≤ fuel') (t : ContractType) :
    readSuffixes fuel t cs = readSuffixes fuel' t cs := by
  induction fuel generalizing fuel' t cs with
  | zero =>
    obtain rfl := eq_nil_of_length_eq_zero (Nat.le_zero.mp enough)
    cases fuel' <;> rfl
  | succ fuel ih =>
    cases fuel' with
    | zero =>
      obtain rfl := eq_nil_of_length_eq_zero (Nat.le_zero.mp enough')
      rfl
    | succ fuel' =>
      rw [readSuffixes, readSuffixes]
      cases eaten : eat "[" cs with
      | none => rfl
      | some rest =>
        dsimp only
        cases closed : expect "]" .arrayEnd (rest.span isDigit).2 with
        | error e => rfl
        | ok later =>
          have bracket : rest.length + 1 ≤ cs.length := length_of_eat eaten
          have closing := length_of_eat (eat_of_expect closed)
          have digits : (rest.span isDigit).2.length ≤ rest.length := by
            rw [span_eq_takeWhile_dropWhile]
            exact (dropWhile_sublist isDigit).length_le
          exact ih (by omega) (by omega) _

theorem suffixed_dropBlanks (t : ContractType) (cs : List Char) : suffixed t (dropBlanks cs) = suffixed t cs := by
  have shorter : (dropBlanks cs).length ≤ cs.length := (dropWhile_sublist isBlank).length_le
  rw [suffixed, readSuffixes_enough (Nat.le_refl _) shorter, suffixed]
  cases cs with
  | nil => rfl
  | cons c rest => rw [length_cons, readSuffixes, readSuffixes, eat_dropBlanks, dropBlanks_dropBlanks]

theorem suffixed_end (ends : ∀ more, dropBlanks cs ≠ '[' :: more) (t : ContractType) :
    suffixed t cs = .ok (t, dropBlanks cs) := by
  have missing : eat "[" cs = none := by
    cases eaten : eat "[" cs with
    | none => rfl
    | some more => exact absurd (eat_eq_some_iff.mp eaten) (ends more)
  rw [suffixed]
  cases cs with
  | nil => rfl
  | cons c rest => rw [length_cons, readSuffixes, missing]

theorem suffixed_array (all : ∀ c ∈ digits, isDigit c = true) (t : ContractType) (rest : List Char) :
    suffixed t ('[' :: (digits ++ ']' :: rest)) = suffixed (.array t (lengthOf digits)) rest := by
  have spans : (digits ++ ']' :: rest).span isDigit = (digits, ']' :: rest) := by
    rw [span_eq_takeWhile_dropWhile, takeWhile_append_of_pos all, dropWhile_append_of_pos all]
    simp [isDigit, decimalDigit?]
  have opened : eat "[" ('[' :: (digits ++ ']' :: rest)) = some (digits ++ ']' :: rest) :=
    eat_eq_some_iff.mpr (dropBlanks_cons rfl)
  have closed : expect "]" .arrayEnd (']' :: rest) = .ok rest :=
    expect_of_eat (eat_eq_some_iff.mpr (dropBlanks_cons rfl)) _
  rw [suffixed, length_cons, readSuffixes, opened]
  simp only [spans, closed]
  exact readSuffixes_enough (by simp; omega) (Nat.le_refl _) _

theorem isDigit_of_mem_toString (among : c ∈ (toString n).toList) : isDigit c = true := by
  rw [isDigit, Number.decimalDigit?_of_isDigit (Number.isDigit_of_mem_toString among)]
  rfl

theorem lengthOf_toString (fits : fitsWord n = true) : lengthOf (toString n).toList = some n := by
  rw [lengthOf, readNat_toString]
  exact if_pos fits

theorem readType_blank (some_fuel : 0 < fuel) (cs : List Char) : readType fuel (' ' :: cs) = readType fuel cs := by
  cases fuel with
  | zero => cases some_fuel
  | succ fuel => rw [readType, readType, dropBlanks_blank rfl]

theorem visible_of_legible {n : String} (legible : Legible n) : dropBlanks n.toList ≠ [] := by
  intro blank
  exact legible.1 (trim_eq_nil_iff.mpr (dropBlanks_eq_nil_iff.mp blank))

theorem readName_legible {n : String} (legible : Legible n) (boundary : Boundary rest) :
    readName (dropBlanks n.toList ++ rest) = .ok (.named (settle n), dropBlanks rest) := by
  have spans := span_name (fun c among => legible.2 c (mem_of_mem_dropBlanks among)) boundary
  have trimmed : trim (dropBlanks n.toList ++ rest.takeWhile isBlank) = trim n.toList := by
    rw [trim_append_blanks (fun c among => mem_takeWhile_imp among), trim_dropBlanks]
  have shows : (trim n.toList).isEmpty = false := by simpa using legible.1
  simp only [readName, spans, trimmed, shows, settle]
  rfl

theorem render_starts {t : ContractType} (readable : t.Readable) (rest : List Char) :
    ∃ c more, dropBlanks (t.render.toList ++ rest) = c :: more ∧ c ≠ ')' := by
  cases t with
  | named n =>
    have visible : dropBlanks n.toList ≠ [] := visible_of_legible readable
    obtain ⟨c, more, left⟩ := exists_cons_of_ne_nil visible
    refine ⟨c, more ++ rest, ?_, ?_⟩
    · rw [render, dropBlanks_append visible, left, cons_append]
    · rintro rfl
      have legible := readable.2 ')' (mem_of_mem_dropBlanks (left ▸ mem_cons_self ..))
      cases legible
  | mapping key value =>
    refine ⟨'m', ?_, ?_, by decide⟩
    rotate_left
    · simp [render, dropBlanks, isBlank]
      rfl
  | array item length =>
    cases length with
    | none =>
      rw [render, String.toList_append, append_assoc]
      exact render_starts readable.1 _
    | some n =>
      rw [render, String.toList_append, String.toList_append, String.toList_append, append_assoc, append_assoc,
        append_assoc]
      exact render_starts readable.1 _
  | tuple items =>
    refine ⟨'(', ?_, ?_, by decide⟩
    rotate_left
    · simp [render, dropBlanks, isBlank]
      rfl

theorem eat_close (readable : t.Readable) (rest : List Char) : eat ")" (t.render.toList ++ rest) = none := by
  obtain ⟨c, more, starts, apart⟩ := render_starts readable rest
  cases eaten : eat ")" (t.render.toList ++ rest) with
  | none => rfl
  | some later =>
    cases starts.symm.trans (eat_eq_some_iff.mp eaten)
    exact absurd rfl apart

def itemsText (items : List ContractType) : List Char := (",".intercalate (renderAll items)).toList

theorem itemsText_singleton (t : ContractType) : itemsText [t] = t.render.toList := by
  simp [itemsText, renderAll]

theorem itemsText_cons (t next : ContractType) (rest : List ContractType) :
    itemsText (t :: next :: rest) = t.render.toList ++ ',' :: itemsText (next :: rest) := by
  simp [itemsText, renderAll, String.toList_intercalate]

section

variable {rest : List Char} {fuel : Nat} {items : List ContractType}

theorem readType_named {n : String} (legible : Legible n) (boundary : Boundary rest) :
    readType (fuel + 1) (n.toList ++ rest) = suffixed (.named (settle n)) rest := by
  have visible : dropBlanks n.toList ≠ [] := visible_of_legible legible
  have again : dropBlanks (dropBlanks n.toList) ≠ [] := by rwa [dropBlanks_dropBlanks]
  have solid : ∀ c ∈ dropBlanks n.toList, endsName c = false :=
    fun c among => legible.2 c (mem_of_mem_dropBlanks among)
  have mapping : eat "mapping(" (dropBlanks n.toList ++ rest) = none :=
    eat_name again solid boundary (show _ = "mapping".toList ++ ['('] by simp) (by simp [endsName])
  have spaced : eat "mapping (" (dropBlanks n.toList ++ rest) = none :=
    eat_name again solid boundary (show _ = "mapping ".toList ++ ['('] by simp) (by simp [endsName])
  have tuple : eat "(" (dropBlanks n.toList ++ rest) = none :=
    eat_name again solid boundary (show _ = [] ++ ['('] by simp) (by simp)
  rw [readType, dropBlanks_append visible]
  simp only [mapping, spaced, tuple, Option.none_or, readName_legible legible boundary]
  exact suffixed_dropBlanks _ rest

/-- With this fuel the text of the type is read as the type, up to what may stand behind it. -/
def Reads (fuel : Nat) (t : ContractType) : Prop :=
  ∀ rest, Boundary rest → readType fuel (t.render.toList ++ rest) = suffixed t.settled rest

theorem readType_inner (reads : Reads fuel t) (mark : c ∈ [',', ')', '=']) :
    readType fuel (t.render.toList ++ c :: rest) = .ok (t.settled, c :: rest) := by
  have solid : isBlank c = false ∧ c ≠ '[' := by
    simp only [mem_cons, not_mem_nil, or_false] at mark
    rcases mark with rfl | rfl | rfl <;> decide
  rw [reads _ (boundary_cons (mem_cons_of_mem _ mark) rest), suffixed_end, dropBlanks_cons solid.1]
  intro more same
  rw [dropBlanks_cons solid.1] at same
  exact solid.2 (List.cons.inj same).1

theorem readType_mapping {key value : ContractType} (first : Reads fuel key) (second : Reads fuel value)
    (some_fuel : 0 < fuel) :
    readType (fuel + 1) ((mapping key value).render.toList ++ rest) = suffixed (mapping key value).settled rest := by
  let behind := ' ' :: (value.render.toList ++ ')' :: rest)
  have text : (mapping key value).render.toList ++ rest =
      "mapping(".toList ++ (key.render.toList ++ ' ' :: '=' :: '>' :: behind) := by
    simp [render, behind]
  have front : dropBlanks ((mapping key value).render.toList ++ rest) =
      (mapping key value).render.toList ++ rest := by
    simp [render, dropBlanks, isBlank]
  have opened : eat "mapping(" ((mapping key value).render.toList ++ rest) =
      some (key.render.toList ++ ' ' :: '=' :: '>' :: behind) :=
    eat_eq_some_iff.mpr (front.trans text)
  have readKey : readType fuel (key.render.toList ++ ' ' :: '=' :: '>' :: behind) =
      .ok (key.settled, '=' :: '>' :: behind) := by
    rw [first _ (boundary_arrow _)]
    exact suffixed_end (by simp [dropBlanks, isBlank]) _
  have arrow : expect "=>" .arrow ('=' :: '>' :: behind) = .ok behind :=
    expect_of_eat (eat_eq_some_iff.mpr (dropBlanks_cons rfl)) _
  have readValue : readType fuel behind = .ok (value.settled, ')' :: rest) := by
    rw [readType_blank some_fuel]
    exact readType_inner second (by decide)
  have closed : expect ")" .mappingEnd (')' :: rest) = .ok rest :=
    expect_of_eat (eat_eq_some_iff.mpr (dropBlanks_cons rfl)) _
  rw [readType, front]
  simp only [opened, Option.some_or, readKey, arrow, readValue, closed, bind, Except.bind, pure, Except.pure]
  rfl

theorem readType_array {item : ContractType} {length : Option Nat} (fits : ∀ n ∈ length, fitsWord n = true)
    (reads : Reads fuel item) :
    readType fuel ((array item length).render.toList ++ rest) = suffixed (array item length).settled rest := by
  cases length with
  | none =>
    have text : (array item none).render.toList ++ rest = item.render.toList ++ '[' :: ([] ++ ']' :: rest) := by
      simp [render]
    rw [text, reads _ (boundary_bracket _), suffixed_array (by simp)]
    rfl
  | some n =>
    have text : (array item (some n)).render.toList ++ rest =
        item.render.toList ++ '[' :: ((toString n).toList ++ ']' :: rest) := by
      simp [render]
    rw [text, reads _ (boundary_bracket _), suffixed_array fun c among => isDigit_of_mem_toString among,
      lengthOf_toString (fits n rfl)]
    rfl

theorem itemsText_starts (readable : t.Readable) (items : List ContractType) :
    eat ")" (itemsText (t :: items) ++ rest) = none := by
  cases items with
  | nil =>
    exact eat_close readable _
  | cons next items =>
    rw [itemsText_cons, append_assoc]
    exact eat_close readable _

theorem readType_tuple (readable : AllReadable items)
    (reads : items ≠ [] → readItems fuel (itemsText items ++ ')' :: rest) = .ok (allSettled items, rest)) :
    readType (fuel + 1) ((tuple items).render.toList ++ rest) = suffixed (tuple items).settled rest := by
  have text : (tuple items).render.toList ++ rest = '(' :: (itemsText items ++ ')' :: rest) := by
    simp [render, itemsText]
  have front : dropBlanks ('(' :: (itemsText items ++ ')' :: rest)) = '(' :: (itemsText items ++ ')' :: rest) :=
    dropBlanks_cons rfl
  have mapping : eat "mapping(" ('(' :: (itemsText items ++ ')' :: rest)) = none :=
    eat_other (show _ = 'm' :: "apping(".toList by simp) rfl (by decide)
  have spaced : eat "mapping (" ('(' :: (itemsText items ++ ')' :: rest)) = none :=
    eat_other (show _ = 'm' :: "apping (".toList by simp) rfl (by decide)
  have opened : eat "(" ('(' :: (itemsText items ++ ')' :: rest)) = some (itemsText items ++ ')' :: rest) :=
    eat_eq_some_iff.mpr front
  rw [text, readType, front]
  cases items with
  | nil =>
    rfl
  | cons t items =>
    have unclosed : eat ")" (itemsText (t :: items) ++ ')' :: rest) = none := itemsText_starts readable.1 items
    simp only [mapping, spaced, Option.none_or, opened, unclosed, reads (cons_ne_nil t items), bind, Except.bind, pure,
      Except.pure]
    rfl

theorem readItems_singleton (reads : Reads fuel t) :
    readItems (fuel + 1) (itemsText [t] ++ ')' :: rest) = .ok ([t.settled], rest) := by
  have first : readType fuel (t.render.toList ++ ')' :: rest) = .ok (t.settled, ')' :: rest) :=
    readType_inner reads (by decide)
  have closed : eat ")" (')' :: rest) = some rest := eat_eq_some_iff.mpr (dropBlanks_cons rfl)
  rw [itemsText_singleton, readItems]
  simp only [first, closed, bind, Except.bind, pure, Except.pure]

theorem readItems_cons {next : ContractType} {settledItems : List ContractType} (reads : Reads fuel t)
    (later : readItems fuel (itemsText (next :: items) ++ ')' :: rest) = .ok (settledItems, rest)) :
    readItems (fuel + 1) (itemsText (t :: next :: items) ++ ')' :: rest) = .ok (t.settled :: settledItems, rest) := by
  have first : readType fuel (t.render.toList ++ ',' :: (itemsText (next :: items) ++ ')' :: rest)) =
      .ok (t.settled, ',' :: (itemsText (next :: items) ++ ')' :: rest)) :=
    readType_inner reads (by decide)
  have unclosed : eat ")" (',' :: (itemsText (next :: items) ++ ')' :: rest)) = none :=
    eat_other (show _ = ')' :: [] by simp) rfl (by decide)
  have comma : expect "," .tupleSeparator (',' :: (itemsText (next :: items) ++ ')' :: rest)) =
      .ok (itemsText (next :: items) ++ ')' :: rest) :=
    expect_of_eat (eat_eq_some_iff.mpr (dropBlanks_cons rfl)) _
  rw [itemsText_cons, append_assoc, cons_append, readItems]
  simp only [first, unclosed, comma, later, bind, Except.bind, pure, Except.pure]

end

mutual

theorem readType_render {t : ContractType} (readable : t.Readable) {rest : List Char} (boundary : Boundary rest)
    {fuel : Nat} (enough : t.render.toList.length < fuel) :
    readType fuel (t.render.toList ++ rest) = suffixed t.settled rest := by
  cases fuel with
  | zero => omega
  | succ fuel =>
    cases t with
    | named n => exact readType_named readable boundary
    | mapping key value =>
      have size : (mapping key value).render.toList.length =
          key.render.toList.length + value.render.toList.length + 13 := by
        simp [render]
        omega
      exact readType_mapping (fun _ boundary => readType_render readable.1 boundary (by omega))
        (fun _ boundary => readType_render readable.2 boundary (by omega)) (by omega)
    | array item length =>
      have size : item.render.toList.length ≤ (array item length).render.toList.length := by
        cases length <;> simp [render]
      exact readType_array readable.2 fun _ boundary => readType_render readable.1 boundary (by omega)
    | tuple items =>
      have size : (tuple items).render.toList.length = (itemsText items).length + 2 := by simp [render, itemsText]
      exact readType_tuple readable fun nonempty => readItems_render readable nonempty _ (by omega)

theorem readItems_render {items : List ContractType} (readable : AllReadable items) (nonempty : items ≠ [])
    (rest : List Char) {fuel : Nat} (enough : (itemsText items).length + 1 < fuel) :
    readItems fuel (itemsText items ++ ')' :: rest) = .ok (allSettled items, rest) := by
  cases fuel with
  | zero => omega
  | succ fuel =>
    match items with
    | [] => exact absurd rfl nonempty
    | [t] =>
      have size : (itemsText [t]).length = t.render.toList.length := by rw [itemsText_singleton]
      exact readItems_singleton fun _ boundary => readType_render readable.1 boundary (by omega)
    | t :: next :: items =>
      have size : (itemsText (t :: next :: items)).length =
          t.render.toList.length + 1 + (itemsText (next :: items)).length := by
        rw [itemsText_cons, length_append, length_cons]
        omega
      exact readItems_cons (fun _ boundary => readType_render readable.1 boundary (by omega))
        (readItems_render readable.2 (cons_ne_nil next items) rest (by omega))

end

theorem read_render (readable : t.Readable) : read t.render = .ok t.settled := by
  have enough : t.render.toList.length < 2 * t.render.toList.length + 2 := by omega
  have whole := readType_render readable boundary_nil enough
  rw [append_nil] at whole
  rw [read, whole]
  rfl

def Solid (cs : List Char) : Prop := cs ≠ [] ∧ trim cs = cs

theorem solid_trim (shows : trim cs ≠ []) : Solid (trim cs) := ⟨shows, trim_trim cs⟩

theorem trim_ne_nil (among : c ∈ cs) (solid : isBlank c = false) : trim cs ≠ [] := by
  intro blank
  rw [trim_eq_nil_iff.mp blank c among] at solid
  cases solid

theorem solid_dropWord (spaced : word.toList = front ++ [' ']) (solid : Solid cs) : Solid (dropWord word cs) := by
  unfold dropWord
  split
  · rename_i rest found
    have whole := after?_eq_some_iff.mp found
    apply solid_trim
    -- the last character is no blank, so something stands behind the word
    rcases eq_nil_or_concat rest with rfl | ⟨before, c, rfl⟩
    · rw [append_nil, spaced] at whole
      cases solid_of_trim_last (solid.2.trans whole)
    · rw [concat_eq_append, ← append_assoc] at whole
      exact trim_ne_nil (by simp) (solid_of_trim_last (solid.2.trans whole))
  · exact solid

theorem plainName_ne_nil (solid : Solid cs) : plainName cs ≠ [] := by
  have solid := solid_dropWord (show "enum ".toList = "enum".toList ++ [' '] by simp)
    (solid_dropWord (show "struct ".toList = "struct".toList ++ [' '] by simp)
      (solid_dropWord (show "contract ".toList = "contract".toList ++ [' '] by simp) solid))
  unfold plainName dropPayable
  generalize dropWord "enum " _ = cs at solid
  obtain ⟨c, rest, rfl⟩ := exists_cons_of_ne_nil solid.1
  have first := solid_of_trim solid.2
  split
  · -- the ending starts with a blank, so it leaves the first character
    rename_i ends
    obtain ⟨front, whole⟩ := isSuffixOf_iff_suffix.mp ends
    have kept : (c :: rest).take ((c :: rest).length - 8) = front := by
      rw [← whole]
      exact take_left' (by simp)
    rw [kept]
    cases front with
    | nil =>
      cases whole
      cases first
    | cons d front =>
      obtain ⟨rfl, _⟩ := List.cons.inj whole
      exact trim_ne_nil (mem_cons_self ..) first
  · exact trim_ne_nil (mem_cons_self ..) first

theorem mem_of_mem_dropWord (among : c ∈ dropWord word cs) : c ∈ cs := by
  unfold dropWord at among
  split at among
  · rename_i rest found
    rw [after?_eq_some_iff.mp found]
    exact mem_append_right _ (mem_of_mem_trim among)
  · exact among

theorem mem_of_mem_plainName (among : c ∈ plainName cs) : c ∈ cs := by
  have among := mem_of_mem_trim among
  have among : c ∈ dropWord "enum " (dropWord "struct " (dropWord "contract " cs)) := by
    unfold dropPayable at among
    split at among
    · exact mem_of_mem_take among
    · exact among
  exact mem_of_mem_dropWord (mem_of_mem_dropWord (mem_of_mem_dropWord among))

theorem legible_plainName (solid : Solid cs) (clean : ∀ c ∈ cs, endsName c = false) :
    Legible (String.ofList (plainName cs)) := by
  constructor
  · rw [String.toList_ofList, plainName, trim_trim]
    exact plainName_ne_nil solid
  · intro c among
    rw [String.toList_ofList] at among
    exact clean c (mem_of_mem_plainName among)

theorem readable_readName (reads : readName cs = .ok (t, rest)) : t.Readable := by
  unfold readName at reads
  rw [span_eq_takeWhile_dropWhile] at reads
  dsimp only at reads
  split at reads
  · cases reads
  · rename_i shows
    cases reads
    refine legible_plainName (solid_trim (by simpa using shows)) fun c among => ?_
    simpa using mem_takeWhile_imp (mem_of_mem_trim among)

theorem fitsWord_lengthOf (given : lengthOf digits = some n) : fitsWord n = true := by
  obtain ⟨m, _, word⟩ := Option.bind_eq_some_iff.mp given
  unfold word? at word
  split at word
  · cases word
    assumption
  · cases word

theorem readable_readSuffixes {t' : ContractType} (readable : t.Readable)
    (reads : readSuffixes fuel t cs = .ok (t', rest)) : t'.Readable := by
  induction fuel generalizing t cs with
  | zero =>
    cases reads
    exact readable
  | succ fuel ih =>
    rw [readSuffixes] at reads
    split at reads
    · cases reads
      exact readable
    · dsimp only at reads
      split at reads
      · exact ih (t := .array t _) ⟨readable, fun n given => fitsWord_lengthOf given⟩ reads
      · cases reads

theorem readable_readType (fuel : Nat) :
    (∀ {cs rest : List Char} {t : ContractType}, readType fuel cs = .ok (t, rest) → t.Readable) ∧
      ∀ {cs rest : List Char} {items : List ContractType}, readItems fuel cs = .ok (items, rest) →
        AllReadable items := by
  induction fuel with
  | zero =>
    refine ⟨fun reads => ?_, fun reads => ?_⟩
    · cases reads
    · cases reads
  | succ fuel ih =>
    obtain ⟨inner, items⟩ := ih
    refine ⟨fun reads => ?_, fun reads => ?_⟩
    · rw [readType] at reads
      split at reads
      · obtain ⟨⟨key, _⟩, first, reads⟩ := bind_eq_ok_iff.mp reads
        obtain ⟨_, _, reads⟩ := bind_eq_ok_iff.mp reads
        obtain ⟨⟨value, _⟩, second, reads⟩ := bind_eq_ok_iff.mp reads
        obtain ⟨_, _, reads⟩ := bind_eq_ok_iff.mp reads
        exact readable_readSuffixes (t := .mapping key value) ⟨inner first, inner second⟩ reads
      · split at reads
        · split at reads
          · exact readable_readSuffixes (t := .tuple []) trivial reads
          · obtain ⟨⟨listed, _⟩, first, reads⟩ := bind_eq_ok_iff.mp reads
            exact readable_readSuffixes (t := .tuple listed) (items first) reads
        · obtain ⟨⟨name, _⟩, first, reads⟩ := bind_eq_ok_iff.mp reads
          exact readable_readSuffixes (readable_readName first) reads
    · obtain ⟨⟨item, later⟩, first, made⟩ := bind_eq_ok_iff.mp reads
      dsimp only at made
      split at made
      · cases made
        exact ⟨inner first, trivial⟩
      · obtain ⟨_, _, made⟩ := bind_eq_ok_iff.mp made
        obtain ⟨⟨listed, _⟩, others, made⟩ := bind_eq_ok_iff.mp made
        cases made
        exact ⟨inner first, items others⟩

theorem readable_read {text : String} (reads : read text = .ok t) : t.Readable := by
  unfold read at reads
  dsimp only at reads
  split at reads
  · cases reads
  · rename_i found
    split at reads
    · cases reads
      exact (readable_readType _).1 found
    · cases reads

theorem read?_render (readable : t.Readable) (plain : ∀ n ∈ t.names, settle n = n) : read? t.render = some t := by
  rw [read?, read_render readable, (settled_eq_self_iff t).mpr plain]
  rfl

structure LeafNormal (n : String) : Prop where
  nonempty : n ≠ ""
  unpunctuated : ∀ c ∈ n.toList, endsName c = false
  settled : settle n = n

theorem leafNormal_iff {n : String} : LeafNormal n ↔ Legible n ∧ settle n = n := by
  constructor
  · rintro ⟨nonempty, unpunctuated, settled⟩
    refine ⟨⟨fun blank => nonempty ?_, unpunctuated⟩, settled⟩
    rw [← settled, settle, blank]
    rfl
  · rintro ⟨⟨shows, unpunctuated⟩, settled⟩
    refine ⟨?_, unpunctuated, settled⟩
    rintro rfl
    exact shows rfl

mutual

def lengths : ContractType → List Nat
  | .named _ => []
  | .mapping key value => lengths key ++ lengths value
  | .array item length => lengths item ++ length.toList
  | .tuple items => allLengths items

def allLengths : List ContractType → List Nat
  | [] => []
  | t :: rest => lengths t ++ allLengths rest

end

mutual

theorem readable_iff (t : ContractType) :
    t.Readable ↔ (∀ n ∈ t.names, Legible n) ∧ ∀ l ∈ t.lengths, fitsWord l = true := by
  cases t with
  | named n => simp [Readable, names, lengths]
  | mapping key value =>
    simp only [Readable, names, lengths, forall_mem_append, readable_iff key, readable_iff value]
    exact and_and_and_comm
  | array item length =>
    simp only [Readable, names, lengths, forall_mem_append, readable_iff item, Option.mem_toList]
    exact and_assoc
  | tuple items => exact allReadable_iff items

theorem allReadable_iff (items : List ContractType) :
    AllReadable items ↔ (∀ n ∈ allNames items, Legible n) ∧ ∀ l ∈ allLengths items, fitsWord l = true := by
  cases items with
  | nil => simp [AllReadable, allNames, allLengths]
  | cons t rest =>
    simp only [AllReadable, allNames, allLengths, forall_mem_append, readable_iff t, allReadable_iff rest]
    exact and_and_and_comm

end

/-- Writing and reading are inverse: a type with normal names and lengths of a word is read back as it is, and what was
read can be written and read again, which gives the same type exactly when its names are normal. -/
theorem read_render_inverse :
    (∀ t : ContractType, (∀ n ∈ t.names, LeafNormal n) → (∀ l ∈ t.lengths, l < 2 ^ 64) → read t.render = .ok t) ∧
      ∀ (text : String) (t : ContractType), read text = .ok t →
        ∃ back, read t.render = .ok back ∧ (back = t ↔ ∀ n ∈ t.names, LeafNormal n) := by
  constructor
  · intro t normal short
    have readable : t.Readable := (readable_iff t).mpr
      ⟨fun n among => (leafNormal_iff.mp (normal n among)).1, fun l among => decide_eq_true (short l among)⟩
    rw [read_render readable, (settled_eq_self_iff t).mpr fun n among => (normal n among).settled]
  · intro text t reads
    have readable := readable_read reads
    have legible := ((readable_iff t).mp readable).1
    refine ⟨t.settled, read_render readable, (settled_eq_self_iff t).trans (forall₂_congr fun n among => ?_)⟩
    exact ⟨fun same => leafNormal_iff.mpr ⟨legible n among, same⟩, LeafNormal.settled⟩

def kindsOf (kind : String) : ContractType :=
  .tuple [.mapping .address (.array (.named kind) (some 3)), .array (.named "bool") none]

/-- The word `struct` behind `enum` stays at first and is dropped when the written name is read. -/
theorem second_qualifier_lost : read (kindsOf "Kind").render = .ok (kindsOf "Kind") ∧
    read "(mapping (address=> enum struct Kind [3]),bool[])" = .ok (kindsOf "struct Kind") ∧
    ∃ back, read (kindsOf "struct Kind").render = .ok back ∧ back ≠ kindsOf "struct Kind" := by
  constructor
  · refine read_render_inverse.1 _ (fun n among => ?_) (by decide)
    have which : n = "address" ∨ n = "Kind" ∨ n = "bool" := by simpa [kindsOf, names, allNames, address] using among
    obtain rfl | rfl | rfl := which <;> exact ⟨by decide, by simp [endsName], by decide +kernel⟩
  · have reads : read "(mapping (address=> enum struct Kind [3]),bool[])" = .ok (kindsOf "struct Kind") := by
      decide +kernel
    obtain ⟨back, again, same⟩ := read_render_inverse.2 _ _ reads
    refine ⟨reads, back, again, fun unchanged => ?_⟩
    exact absurd (same.mp unchanged "struct Kind" (by decide)).settled (by decide +kernel)

end TokenAudit.ContractType
