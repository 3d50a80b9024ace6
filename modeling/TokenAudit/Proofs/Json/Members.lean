import Mathlib.Data.List.Nodup
import Mathlib.Data.List.Perm.Basic
import TokenAudit.Check.Format

/-!
# Members of a value

A decoder asks for members by name, so it sees an object only up to the order of its members.
-/

namespace TokenAudit.Json

open List

variable {α : Type} {ms ms' : Members} {n : String} {names : List String} {v : Json} {name : String}
  {table : List (String × α)} {a : α} {encode : α → Json} {decode : Json → Option α} {o : Option α}

section

variable (perm : ms.Perm ms')

include perm

theorem valuesOf_perm (names : List String) : (valuesOf names ms).Perm (valuesOf names ms') := by
  induction perm with
  | nil => exact .nil
  | cons m _ ih =>
    obtain ⟨n, v⟩ := m
    simp only [valuesOf]
    split
    · exact ih.cons v
    · exact ih
  | swap m m' rest =>
    simp only [valuesOf]
    split <;> split
    · exact .swap ..
    · exact .refl _
    · exact .refl _
    · exact .refl _
  | trans _ _ ih ih' => exact ih.trans ih'

theorem member_perm (names : List String) : member ms names = member ms' names := by
  have values := valuesOf_perm perm names
  unfold member
  generalize valuesOf names ms = vs at values
  generalize valuesOf names ms' = vs' at values
  match vs, vs', values with
  | [], _, values => rw [nil_perm.mp values]
  | [v], _, values => rw [singleton_perm.mp values]
  | _ :: _ :: _, [], values => cases values.length_eq
  | _ :: _ :: _, [_], values => cases values.length_eq
  | _ :: _ :: _, _ :: _ :: _, _ => rfl

theorem requiredAs_perm (decode : Json → Option α) : requiredAs ms names decode = requiredAs ms' names decode := by
  simp only [requiredAs, member_perm perm]

theorem required_perm (decode : Json → Option α) : required ms n decode = required ms' n decode :=
  requiredAs_perm perm decode

theorem defaulted_perm (dflt : α) (decode : Json → Option α) :
    defaulted ms n dflt decode = defaulted ms' n dflt decode := by
  simp only [defaulted, member_perm perm]

theorem optional_perm (decode : Json → Option α) : optional ms n decode = optional ms' n decode :=
  defaulted_perm perm none _

theorem lenient_perm (dflt : α) (decode : Json → Option α) : lenient ms n dflt decode = lenient ms' n dflt decode := by
  simp only [lenient, defaulted_perm perm]

end

theorem valuesOf_eq_nil (apart : ∀ n ∈ ms.map Prod.fst, n ∉ names) : valuesOf names ms = [] := by
  induction ms with
  | nil => rfl
  | cons m rest ih =>
    obtain ⟨n, v⟩ := m
    rw [valuesOf, if_neg (apart n (mem_cons_self ..))]
    exact ih fun x among => apart x (mem_cons_of_mem n among)

theorem member_cons_mem (named : n ∈ names) (apart : ∀ n ∈ ms.map Prod.fst, n ∉ names) :
    member ((n, v) :: ms) names = some (some v) := by
  rw [member, valuesOf, if_pos named, valuesOf_eq_nil apart]

theorem member_cons_notMem (unnamed : n ∉ names) : member ((n, v) :: ms) names = member ms names := by
  rw [member, valuesOf, if_neg unnamed, member]

@[simp] theorem requiredAs_cons_mem (named : n ∈ names) (apart : ∀ n ∈ ms.map Prod.fst, n ∉ names)
    (decode : Json → Option α) : requiredAs ((n, v) :: ms) names decode = decode v := by
  rw [requiredAs, member_cons_mem named apart]

@[simp] theorem requiredAs_cons_notMem (unnamed : n ∉ names) (decode : Json → Option α) :
    requiredAs ((n, v) :: ms) names decode = requiredAs ms names decode := by
  rw [requiredAs, member_cons_notMem unnamed, requiredAs]

@[simp] theorem requiredAs_nil (decode : Json → Option α) : requiredAs [] names decode = none := rfl

@[simp] theorem defaulted_cons_self (apart : n ∉ ms.map Prod.fst) (dflt : α) (decode : Json → Option α) :
    defaulted ((n, v) :: ms) n dflt decode = decode v := by
  rw [defaulted, member_cons_mem (mem_singleton_self n)]
  rintro x among same
  exact apart (mem_singleton.mp same ▸ among)

@[simp] theorem defaulted_cons_ne (apart : name ≠ n) (dflt : α) (decode : Json → Option α) :
    defaulted ((name, v) :: ms) n dflt decode = defaulted ms n dflt decode := by
  have unnamed : name ∉ [n] := by simpa using apart
  rw [defaulted, member_cons_notMem unnamed, defaulted]

theorem find?_cons (m : String × α) (rest : List (String × α)) (n : String) :
    find? (m :: rest) n = if m.1 = n then some m.2 else find? rest n := by
  by_cases same : m.1 = n <;> simp [find?, same]

theorem find?_append (first rest : List (String × α)) (n : String) :
    find? (first ++ rest) n = (find? first n).or (find? rest n) := by
  simp only [find?, List.find?_append]
  cases first.find? fun e => e.1 == n <;> rfl

theorem find?_eq_none : find? table n = none ↔ n ∉ table.map Prod.fst := by
  induction table with
  | nil => simp [find?]
  | cons m rest ih =>
    rw [find?_cons, map_cons, mem_cons, not_or, ← ih]
    by_cases same : m.1 = n
    · simp [same]
    · simp [same, Ne.symm same]

theorem mem_of_find? (found : find? table n = some a) : (n, a) ∈ table := by
  induction table with
  | nil => cases found
  | cons m rest ih =>
    rw [find?_cons] at found
    split at found
    · rename_i same
      cases found
      cases same
      exact mem_cons_self ..
    · exact mem_cons_of_mem m (ih found)

theorem find?_of_mem (distinct : (table.map Prod.fst).Nodup) (among : (n, a) ∈ table) : find? table n = some a := by
  induction table with
  | nil => cases among
  | cons m rest ih =>
    obtain ⟨apart, distinct⟩ := nodup_cons.mp distinct
    rw [find?_cons]
    rcases mem_cons.mp among with rfl | among
    · exact if_pos rfl
    · rw [if_neg, ih distinct among]
      rintro rfl
      exact apart (mem_map.mpr ⟨_, among, rfl⟩)

theorem perm_of_find? (distinct : (ms.map Prod.fst).Nodup) (distinct' : (ms'.map Prod.fst).Nodup)
    (same : ∀ n, find? ms n = find? ms' n) : ms.Perm ms' := by
  refine (perm_ext_iff_of_nodup distinct.of_map distinct'.of_map).mpr fun ⟨n, v⟩ => ⟨fun among => ?_, fun among => ?_⟩
  · exact mem_of_find? (same n ▸ find?_of_mem distinct among)
  · exact mem_of_find? ((same n).symm ▸ find?_of_mem distinct' among)

@[simp] theorem normal_bool (b : Bool) : (Json.bool b).normal = .bool b := rfl

@[simp] theorem normal_int (i : Int) : (Json.int i).normal = .int i := rfl

@[simp] theorem normal_str (s : String) : (Json.str s).normal = .str s := rfl

@[simp] theorem normal_obj (ms : Members) : (Json.obj ms).normal = .obj (normalMembers [] ms) := rfl

theorem find?_putMember (name : String) (value : Json) (ms : Members) (n : String) :
    find? (putMember name value ms) n = if name = n then some value else find? ms n := by
  induction ms with
  | nil => simp [putMember, find?_cons]
  | cons m rest ih =>
    obtain ⟨head, v⟩ := m
    rw [putMember]
    split
    · simp [find?_cons]
    · rename_i order
      obtain rfl := Std.LawfulEqCmp.eq_of_compare order
      simp only [find?_cons]
      split <;> rfl
    · rename_i order
      rw [find?_cons, ih, find?_cons]
      by_cases first : head = n
      · have apart : name ≠ n := by
          rintro rfl
          subst first
          cases order.symm.trans Std.ReflCmp.compare_self
        simp [first, apart]
      · simp [first]

def Ordered (ms : Members) : Prop := (ms.map Prod.fst).Pairwise fun a b => compare a b = .lt

theorem Ordered.nodup (ordered : Ordered ms) : (ms.map Prod.fst).Nodup := by
  refine List.Pairwise.imp (fun {a b} before => ?_) ordered
  rintro rfl
  cases before.symm.trans Std.ReflCmp.compare_self

theorem fst_putMember {x : String} {value : Json} (among : x ∈ (putMember name value ms).map Prod.fst) :
    x = name ∨ x ∈ ms.map Prod.fst := by
  by_contra neither
  obtain ⟨apart, missing⟩ := not_or.mp neither
  have absent : find? (putMember name value ms) x = none := by
    rw [find?_putMember, if_neg (Ne.symm apart), find?_eq_none.mpr missing]
  exact find?_eq_none.mp absent among

theorem Ordered.putMember (ordered : Ordered ms) (name : String) (value : Json) :
    Ordered (putMember name value ms) := by
  induction ms with
  | nil => exact pairwise_singleton _ _
  | cons m rest ih =>
    obtain ⟨head, v⟩ := m
    obtain ⟨first, later⟩ := pairwise_cons.mp ordered
    rw [Json.putMember]
    split
    · rename_i order
      refine pairwise_cons.mpr ⟨fun x among => ?_, ordered⟩
      rcases mem_cons.mp among with rfl | among
      · exact order
      · exact Std.TransCmp.lt_trans order (first x among)
    · exact ordered
    · rename_i order
      refine pairwise_cons.mpr ⟨fun x among => ?_, ih later⟩
      rcases fst_putMember among with rfl | among
      · exact Std.OrientedCmp.lt_of_gt order
      · exact first x among

theorem Ordered.normalMembers {acc : Members} (ordered : Ordered acc) (ms : Members) :
    Ordered (normalMembers acc ms) := by
  induction ms generalizing acc with
  | nil => exact ordered
  | cons m rest ih => exact ih (ordered.putMember m.1 m.2.normal)

theorem nodup_normalMembers (ms : Members) : ((normalMembers [] ms).map Prod.fst).Nodup :=
  (Ordered.normalMembers (show Ordered [] from List.Pairwise.nil) ms).nodup

theorem find?_normalMembers (acc ms : Members) (n : String) :
    find? (normalMembers acc ms) n = ((find? ms.reverse n).map normal).or (find? acc n) := by
  induction ms generalizing acc with
  | nil => rfl
  | cons m rest ih =>
    obtain ⟨name, v⟩ := m
    rw [normalMembers, ih, reverse_cons, find?_append, find?_putMember, find?_cons]
    cases find? rest.reverse n with
    | some later => rfl
    | none =>
      by_cases same : name = n
      · simp [same]
      · simp [same, find?]

theorem fst_normalMembers (ms : Members) : n ∈ (normalMembers [] ms).map Prod.fst ↔ n ∈ ms.map Prod.fst := by
  have reversed : n ∈ ms.map Prod.fst ↔ n ∈ ms.reverse.map Prod.fst := by rw [map_reverse, mem_reverse]
  rw [reversed, ← not_iff_not, ← find?_eq_none, ← find?_eq_none, find?_normalMembers]
  cases find? ms.reverse n <;> simp [find?]

def Member.normal (m : String × Json) : String × Json := (m.1, m.2.normal)

section

variable (distinct : (ms.map Prod.fst).Nodup)

include distinct

theorem normalMembers_perm : (normalMembers [] ms).Perm (ms.map Member.normal) := by
  have fst : (ms.map Member.normal).map Prod.fst = ms.map Prod.fst := by simp [Member.normal, Function.comp_def]
  refine perm_of_find? (nodup_normalMembers ms) (fst ▸ distinct) fun n => ?_
  rw [find?_normalMembers]
  cases held : find? ms.reverse n with
  | none =>
    rw [find?_eq_none, map_reverse, mem_reverse] at held
    exact (find?_eq_none.mpr (fst ▸ held)).symm
  | some v =>
    have among : (n, v) ∈ ms := mem_reverse.mp (mem_of_find? held)
    exact (find?_of_mem (fst ▸ distinct) (mem_map_of_mem (f := Member.normal) among)).symm

theorem member_normal (names : List String) :
    member (normalMembers [] ms) names = (member ms names).map (Option.map normal) := by
  have values : valuesOf names (ms.map Member.normal) = (valuesOf names ms).map normal := by
    clear distinct
    induction ms with
    | nil => rfl
    | cons m rest ih =>
      obtain ⟨n, v⟩ := m
      by_cases among : n ∈ names <;> simp [valuesOf, Member.normal, among, ih]
  rw [member_perm (normalMembers_perm distinct), member, values, member]
  match valuesOf names ms with
  | [] => rfl
  | [v] => rfl
  | _ :: _ :: _ => rfl

@[simp] theorem requiredAs_normal (decode : Json → Option α) :
    requiredAs (normalMembers [] ms) names decode = requiredAs ms names fun j => decode j.normal := by
  rw [requiredAs, member_normal distinct, requiredAs]
  match member ms names with
  | none => rfl
  | some none => rfl
  | some (some v) => rfl

theorem required_normal (decode : Json → Option α) :
    required (normalMembers [] ms) n decode = required ms n fun j => decode j.normal :=
  requiredAs_normal distinct decode

@[simp] theorem defaulted_normal (dflt : α) (decode : Json → Option α) :
    defaulted (normalMembers [] ms) n dflt decode = defaulted ms n dflt fun j => decode j.normal := by
  rw [defaulted, member_normal distinct, defaulted]
  match member ms [n] with
  | none => rfl
  | some none => rfl
  | some (some v) => rfl

end

theorem normalMembers_insert {before after : Members} (new : n ∉ (before ++ after).map Prod.fst) :
    (normalMembers [] (before ++ (n, v) :: after)).Perm ((n, v.normal) :: normalMembers [] (before ++ after)) := by
  refine perm_of_find? (nodup_normalMembers _) ?_ fun x => ?_
  · exact nodup_cons.mpr ⟨(fst_normalMembers _).not.mpr new, nodup_normalMembers _⟩
  · rw [find?_cons, find?_normalMembers, find?_normalMembers, reverse_append, reverse_cons, append_assoc,
      find?_append, singleton_append, find?_cons, reverse_append, find?_append]
    by_cases same : n = x
    · obtain rfl := same
      have later : find? after.reverse n = none :=
        find?_eq_none.mpr fun among => new (by simp_all)
      simp [later]
    · simp [same]

theorem normal_ofOption (encode : α → Json) (o : Option α) :
    (ofOption encode o).normal = ofOption (fun a => (encode a).normal) o := by
  cases o <;> rfl

theorem normal_arr (items : List Json) : (Json.arr items).normal = .arr (items.map normal) := by
  have normalItems_eq : normalItems items = items.map normal := by
    induction items with
    | nil => rfl
    | cons j rest ih => rw [normalItems, ih, map_cons]
  rw [normal, normalItems_eq]

theorem nullable?_ofOption (solid : ∀ a ∈ o, encode a ≠ .null)
    (inverse : ∀ a ∈ o, decode (encode a) = some a) : nullable? decode (ofOption encode o) = some o := by
  cases o with
  | none => rfl
  | some a =>
    have solid := solid a rfl
    have inverse := inverse a rfl
    show nullable? decode (encode a) = _
    cases written : encode a with
    | null => exact absurd written solid
    | _ =>
      rw [written] at inverse
      simp [nullable?, inverse]

theorem list?_map {as : List α} (inverse : ∀ a ∈ as, decode (encode a) = some a) :
    list? decode (.arr (as.map encode)) = some as := by
  show decodeItems decode (as.map encode) = some as
  induction as with
  | nil => rfl
  | cons a rest ih =>
    have later := ih fun a among => inverse a (mem_cons_of_mem _ among)
    simp [decodeItems, inverse a (mem_cons_self ..), later]

theorem bind_eq_some {β : Type} {x : Option α} {f : α → Option β} {b : β} :
    (x >>= f) = some b ↔ ∃ a, x = some a ∧ f a = some b :=
  Option.bind_eq_some_iff

def Yields (I : Json → Prop) (decode : Json → Option α) (P : α → Prop) : Prop :=
  ∀ ⦃j⦄, I j → ∀ ⦃a⦄, decode j = some a → P a

structure Hereditary (I : Json → Prop) : Prop where
  item : ∀ {items j}, I (.arr items) → j ∈ items → I j
  member : ∀ {ms m}, I (.obj ms) → m ∈ ms → I m.2

theorem hereditary_true : Hereditary fun _ => True := ⟨fun _ _ => trivial, fun _ _ => trivial⟩

section

variable {I : Json → Prop} {P : α → Prop} {decode : Json → Option α} {a : α} {dflt : α} {as : List α} {j : Json}

theorem mem_of_valuesOf (among : v ∈ valuesOf names ms) : ∃ m ∈ ms, m.2 = v := by
  induction ms with
  | nil => cases among
  | cons m rest ih =>
    obtain ⟨n, w⟩ := m
    have later (among : v ∈ valuesOf names rest) : ∃ m ∈ (n, w) :: rest, m.2 = v := by
      obtain ⟨m, among, same⟩ := ih among
      exact ⟨m, mem_cons_of_mem _ among, same⟩
    rw [valuesOf] at among
    split at among
    · rcases mem_cons.mp among with rfl | among
      · exact ⟨_, mem_cons_self .., rfl⟩
      · exact later among
    · exact later among

theorem mem_of_member (found : member ms names = some (some v)) : ∃ m ∈ ms, m.2 = v := by
  unfold member at found
  split at found
  · cases found
  · rename_i values
    cases found
    exact mem_of_valuesOf (values ▸ mem_singleton_self v)
  · cases found

theorem Yields.requiredAs (yields : Yields I decode P) (held : ∀ m ∈ ms, I m.2)
    (decoded : requiredAs ms names decode = some a) : P a := by
  unfold Json.requiredAs at decoded
  split at decoded
  · rename_i v found
    obtain ⟨m, among, rfl⟩ := mem_of_member found
    exact yields (held m among) decoded
  · cases decoded

theorem Yields.required (yields : Yields I decode P) (held : ∀ m ∈ ms, I m.2)
    (decoded : required ms n decode = some a) : P a :=
  yields.requiredAs held decoded

theorem Yields.defaulted (yields : Yields I decode P) (held : ∀ m ∈ ms, I m.2) (missing : P dflt)
    (decoded : defaulted ms n dflt decode = some a) : P a := by
  unfold Json.defaulted at decoded
  split at decoded
  · cases decoded
    exact missing
  · rename_i v found
    obtain ⟨m, among, rfl⟩ := mem_of_member found
    exact yields (held m among) decoded
  · cases decoded

theorem Yields.nullable (yields : Yields I decode P) : Yields I (nullable? decode) fun o => ∀ a ∈ o, P a := by
  intro j held o decoded a present
  cases j with
  | null =>
    cases decoded
    cases present
  | _ =>
    obtain ⟨b, made, rfl⟩ := Option.map_eq_some_iff.mp decoded
    cases present
    exact yields held made

theorem Yields.optional (yields : Yields I decode P) (held : ∀ m ∈ ms, I m.2)
    (decoded : optional ms n decode = some o) : ∀ a ∈ o, P a :=
  yields.nullable.defaulted held (fun _ absent => by cases absent) decoded

theorem Yields.lenient (yields : Yields I decode P) (held : ∀ m ∈ ms, I m.2) (missing : P dflt)
    (decoded : lenient ms n dflt decode = some a) : P a := by
  obtain ⟨o, made, rfl⟩ := Option.map_eq_some_iff.mp decoded
  cases o with
  | none => exact missing
  | some a => exact yields.optional held made a rfl

theorem Yields.items (yields : Yields I decode P) {items : List Json} (held : ∀ j ∈ items, I j)
    (decoded : decodeItems decode items = some as) : ∀ a ∈ as, P a := by
  induction items generalizing as with
  | nil =>
    cases decoded
    exact nofun
  | cons j rest ih =>
    rw [decodeItems] at decoded
    split at decoded
    · rename_i first later one others
      cases decoded
      intro a among
      rcases mem_cons.mp among with rfl | among
      · exact yields (held j (mem_cons_self ..)) one
      · exact ih (fun j among => held j (mem_cons_of_mem _ among)) others a among
    · cases decoded

theorem Yields.list (hereditary : Hereditary I) (yields : Yields I decode P) :
    Yields I (list? decode) fun as => ∀ a ∈ as, P a := by
  intro j held as decoded
  cases j with
  | arr items => exact yields.items (fun _ among => hereditary.item held among) decoded
  | _ => cases decoded

theorem Yields.listed (hereditary : Hereditary I) (yields : Yields I decode P) (held : ∀ m ∈ ms, I m.2)
    (decoded : Json.defaulted ms n [] (list? decode) = some as) : ∀ a ∈ as, P a := by
  have none : ∀ a ∈ ([] : List α), P a := nofun
  exact (yields.list hereditary).defaulted held none decoded

theorem members_of_positional {items : List Json} (held : ∀ j ∈ items, I j) (found : positional names items = some ms) :
    ∀ m ∈ ms, I m.2 := by
  unfold positional at found
  split at found
  · cases found
    intro m among
    exact held m.2 (of_mem_zip among).2
  · cases found

theorem members_of_record (hereditary : Hereditary I) (held : I j) (found : j.record? names = some ms) :
    ∀ m ∈ ms, I m.2 := by
  cases j with
  | obj ms =>
    cases found
    exact fun _ among => hereditary.member held among
  | arr items => exact members_of_positional (fun _ among => hereditary.item held among) found
  | _ => cases found

theorem members_of_choice {β : Type} (hereditary : Hereditary I) {standing : Standing} {tag : String}
    {table : List (String × β)} {fields : β → List String} {b : β} (held : I j)
    (found : choice standing tag table fields j = some (b, ms)) : ∀ m ∈ ms, I m.2 := by
  unfold choice at found
  split at found
  · obtain ⟨b, _, same⟩ := Option.map_eq_some_iff.mp found
    cases same
    exact fun _ among => hereditary.member held among
  · split at found
    · obtain ⟨ms, placed, same⟩ := Option.map_eq_some_iff.mp found
      cases same
      exact members_of_positional (fun _ among => hereditary.item held (mem_cons_of_mem _ among)) placed
    · cases found
  · cases found

end

theorem depth_item {items : List Json} {j : Json} (among : j ∈ items) : j.depth < (Json.arr items).depth := by
  have bound : j.depth ≤ itemsDepth items := by
    induction items with
    | nil => cases among
    | cons head rest ih =>
      rcases mem_cons.mp among with rfl | among
      · exact Nat.le_max_left ..
      · exact Nat.le_trans (ih among) (Nat.le_max_right ..)
  simpa [depth] using Nat.lt_succ_of_le bound

theorem depth_member (among : (n, v) ∈ ms) : v.depth < (Json.obj ms).depth := by
  have bound : v.depth ≤ membersDepth ms := by
    induction ms with
    | nil => cases among
    | cons head rest ih =>
      rcases mem_cons.mp among with rfl | among
      · exact Nat.le_max_left ..
      · exact Nat.le_trans (ih among) (Nat.le_max_right ..)
  simpa [depth] using Nat.lt_succ_of_le bound

end TokenAudit.Json
