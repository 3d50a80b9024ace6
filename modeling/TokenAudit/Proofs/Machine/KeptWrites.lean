import TokenAudit.Proofs.Machine.NestedWrites

/-!
# Writes that a root keeps

Instructions make references into one root variable and write through them.  A reference remembers the value its base
had when the reference was made, so a write may take back what was written since.
-/

namespace TokenAudit

open List Datum

/-- A write through a reference: the indices that made the reference, innermost first, and the term that is written. -/
structure RefWrite where
  links : List IndexLink
  value : Term

noncomputable def IndexLink.level (E : Env) (link : IndexLink) : Datum.Level :=
  ⟨link.baseValue.eval E, link.key.eval E⟩

noncomputable def levels (E : Env) (up : List IndexLink) : List Datum.Level := (up.map (IndexLink.level E)).reverse

/-- The array with the cell replaced that the keys of the reference address. -/
noncomputable def RefWrite.perform (E : Env) (a : Datum) (w : RefWrite) : Datum :=
  a.setAt ((levels E w.links).map Datum.Level.key) (w.value.eval E)

/-- The references of the last of some writes remember what the writes before it made of an array. -/
def LastUpToDate (E : Env) : Datum → List RefWrite → Prop
  | _, [] => True
  | a, [w] => Datum.UpToDate a (levels E w.links)
  | a, w :: next :: rest => LastUpToDate E (w.perform E a) (next :: rest)

/-- The references that were made so far, each with the indices that made it, innermost first. -/
abbrev Refs := VarId → Option (List IndexLink)

namespace Refs

def only (root : VarId) : Refs := fun v => if v = root then some [] else none

/-- After an index that makes `target` a reference; what was made from an earlier `target` is a reference no more. -/
def index (refs : Refs) (target : VarId) (link : IndexLink) : Refs := fun v =>
  if v = target then (refs link.base).map (link :: ·) else (refs v).filter fun up => up.all (·.base ≠ target)

theorem index_cases {refs : Refs} {target v : VarId} {link : IndexLink} {up : List IndexLink}
    (made : refs.index target link v = some up) : (v = target ∧ (refs link.base).map (link :: ·) = some up) ∨
      v ≠ target ∧ refs v = some up ∧ ∀ other ∈ up, other.base ≠ target := by
  rw [index] at made
  by_cases here : v = target
  · rw [if_pos here] at made
    exact .inl ⟨here, made⟩
  · rw [if_neg here, Option.filter_eq_some_iff] at made
    obtain ⟨old, clear⟩ := made
    exact .inr ⟨here, old, fun other among => of_decide_eq_true (all_eq_true.mp clear other among)⟩

end Refs

def Path.held (p : Path) (v : VarId) : Term :=
  match p.bindings.get? v with
  | some (.term t) => t
  | _ => .zero

/-- The sort of a cell under a root of sort `s`. -/
def cellSort (s : SmtSort) : List IndexLink → SmtSort
  | [] => s
  | link :: _ => link.baseValue.sort.range

namespace Machine

variable {M : Machine} {p q : Path} {root v : VarId} {s : SmtSort} {refs : Refs} {up : List IndexLink}
  {link : IndexLink} {a t k : Term} {loc : Location} {target base : Variable} {key source : Operand} {leaf : SmtSort}
  {keys : List Term} {is : List Instruction} {writes : List RefWrite}

/-- Instructions that make references into one root of sort `s` and write through them, with keys and values of the
sorts that the arrays have, and what they write in the order of execution. -/
inductive RefRun (M : Machine) (root : VarId) (s : SmtSort) :
    Location → Path → Refs → List Instruction → List RefWrite → Prop
  | done {loc : Location} {p : Path} {refs : Refs} : RefRun M root s loc p refs [] []
  | index {loc : Location} {p : Path} {refs : Refs} {target base : Variable} {key : Operand} {k : Term}
      {up : List IndexLink} {leaf : SmtSort} {rest : List Instruction} {writes : List RefWrite}
      (made : refs base.id = some up) (untied : ∀ v ∈ base.id :: up.map IndexLink.base, v ≠ target.id)
      (keyed : (p.valueOf M.contract key).1 = .term k) (fits : cellSort s up = .array k.sort leaf)
      (assumable : Assumable M p (p.rootOf base).name (k :: up.map IndexLink.key) leaf)
      (others : RefRun M root s loc.next (outcome (M.exec loc (.index target base key)) p).2
        (refs.index target.id ⟨base.id, p.held base.id, k⟩) rest writes) :
      RefRun M root s loc p refs (.index target base key :: rest) writes
  | write {loc : Location} {p : Path} {refs : Refs} {target : Variable} {source : Operand} {t : Term} {link : IndexLink}
      {up : List IndexLink} {rest : List Instruction} {writes : List RefWrite}
      (made : refs target.id = some (link :: up)) (valued : (p.valueOf M.contract source).1 = .term t)
      (fits : t.sort = link.baseValue.sort.range)
      (pinnable : M.tracking.writtenKey = true → ∀ other ∈ link :: up, other.key.sort = .int)
      (others : RefRun M root s loc.next
        (outcome (M.exec loc (.assignment target source)) p).2 refs rest writes) :
      RefRun M root s loc p refs (.assignment target source :: rest) (⟨link :: up, t⟩ :: writes)

/-- Each array on the way is one for its key, and the cell of the array above it. -/
def Chained (s : SmtSort) : List IndexLink → Prop
  | [] => True
  | link :: up => link.baseValue.sort = cellSort s up ∧
      link.baseValue.sort = .array link.key.sort link.baseValue.sort.range ∧ Chained s up

/-- The links of the path are those that made the references, and every reference holds a cell of its sort. -/
structure Tracks (root : VarId) (s : SmtSort) (refs : Refs) (p : Path) : Prop where
  sorted : p.WellSorted
  reaches {v : VarId} {up : List IndexLink} (made : refs v = some up) : Reaches p.links root v up
  chained {v : VarId} {up : List IndexLink} (made : refs v = some up) : Chained s up
  held {v : VarId} {up : List IndexLink} (made : refs v = some up) :
    ∃ c, p.bindings.get? v = some (.term c) ∧ c.sort = cellSort s up

theorem tracks_only (sorted : p.WellSorted) (free : p.links.get? root = none)
    (bound : p.bindings.get? root = some (.term a)) : Tracks root a.sort (.only root) p := by
  have atRoot {v : VarId} {up : List IndexLink} (made : Refs.only root v = some up) : v = root ∧ up = [] := by
    simpa [Refs.only, eq_comm] using made
  refine ⟨sorted, fun made => ?_, fun made => ?_, fun made => ?_⟩ <;> obtain ⟨rfl, rfl⟩ := atRoot made
  · exact .root free
  · trivial
  · exact ⟨a, bound, rfl⟩

theorem Reaches.leads_cases {links : Table VarId IndexLink} {w : VarId} (reaches : Reaches links root v up)
    (leads : Leads links v w) : w ∈ v :: up.map IndexLink.base := by
  induction reaches with
  | root free =>
    obtain rfl | ⟨_, ⟨_, linked, _⟩, _⟩ := leads.cases_head
    · exact mem_cons_self ..
    · rw [free] at linked
      cases linked
  | step linked above ih =>
    obtain rfl | ⟨_, ⟨_, linked', rfl⟩, leads⟩ := leads.cases_head
    · exact mem_cons_self ..
    · cases linked.symm.trans linked'
      exact mem_cons_of_mem _ (ih leads)

theorem Reaches.leads_root {links : Table VarId IndexLink} (reaches : Reaches links root v up) :
    Leads links v root := by
  induction reaches with
  | root free => exact .refl
  | @step _ link _ linked _ ih => exact .head ⟨link, linked, rfl⟩ ih

section

variable (tracks : Tracks root s refs p)

include tracks

theorem Tracks.grows (grows : p.Grows q) : Tracks root s refs q := by
  refine ⟨tracks.sorted.grows grows, fun made => grows.links ▸ tracks.reaches made, tracks.chained, fun made => ?_⟩
  obtain ⟨c, bound, sort⟩ := tracks.held made
  exact ⟨c, grows.keeps _ _ bound, sort⟩

theorem Tracks.bind (reaches : Reaches p.links root v up) (valued : t.HasSort (cellSort s up)) :
    Tracks root s refs (p.bind v (.term t)) := by
  refine ⟨tracks.sorted.bind v valued.1, tracks.reaches, tracks.chained, fun {w up'} made => ?_⟩
  by_cases here : v = w
  · subst here
    cases reaches.unique (tracks.reaches made)
    exact ⟨t, by simp [Path.bind], valued.2⟩
  · obtain ⟨c, bound, sort⟩ := tracks.held made
    exact ⟨c, by simpa [Path.bind, here] using bound, sort⟩

theorem Tracks.index (made : refs base.id = some up) (untied : ∀ v ∈ base.id :: up.map IndexLink.base, v ≠ target.id)
    (keyed : (p.valueOf M.contract key).1 = .term k) (fits : cellSort s up = .array k.sort leaf)
    (assumable : Assumable M p (p.rootOf base).name (k :: up.map IndexLink.key) leaf) :
    ∃ q, Runs (M.exec loc (.index target base key)) p none q ∧
      Tracks root s (refs.index target.id ⟨base.id, p.held base.id, k⟩) q ∧
      ∀ value, p.bindings.get? root = some value → q.bindings.get? root = some value := by
  have reaches := tracks.reaches made
  have apart : ¬ Leads p.links base.id target.id := fun leads => untied _ (reaches.leads_cases leads) rfl
  obtain ⟨c, bound, sort⟩ := tracks.held made
  have array : c.sort = .array k.sort leaf := sort.trans fits
  obtain ⟨q, runs, indexes⟩ := index_indexes loc target tracks.sorted bound keyed array reaches apart assumable
  have held : p.held base.id = c := by simp [Path.held, bound]
  have others (v : VarId) (other : v ≠ target.id) : q.links.get? v = p.links.get? v := by
    rw [indexes.links, Table.get?_insert, if_neg (Ne.symm other)]
  have linked : q.links.get? target.id = some ⟨base.id, c, k⟩ := by
    rw [indexes.links, Table.get?_insert, if_pos rfl]
  obtain ⟨cell, boundCell, cellSorted, _⟩ := indexes.bound
  -- a reference after the index is the target, or one that was made before and not from the target
  have cases {v : VarId} {up' : List IndexLink}
      (made' : refs.index target.id ⟨base.id, p.held base.id, k⟩ v = some up') :
      (v = target.id ∧ up' = ⟨base.id, c, k⟩ :: up) ∨
        (v ≠ target.id ∧ refs v = some up' ∧ ¬ Leads p.links v target.id) := by
    rw [held] at made'
    rcases Refs.index_cases made' with ⟨here, whole⟩ | ⟨here, old, clear⟩
    · rw [made] at whole
      exact .inl ⟨here, (Option.some.inj whole).symm⟩
    · refine .inr ⟨here, old, fun leads => ?_⟩
      rcases mem_cons.mp ((tracks.reaches old).leads_cases leads) with same | among
      · exact here same.symm
      · obtain ⟨link, among, same⟩ := mem_map.mp among
        exact clear link among same
  refine ⟨q, runs, ⟨indexes.sorted, fun made' => ?_, fun made' => ?_, fun made' => ?_⟩,
    fun value => indexes.keeps root value fun same => apart (same ▸ reaches.leads_root)⟩
  · rcases cases made' with ⟨rfl, rfl⟩ | ⟨_, old, away⟩
    · exact .step linked (reaches.relinked others apart)
    · exact (tracks.reaches old).relinked others away
  · rcases cases made' with ⟨rfl, rfl⟩ | ⟨_, old, _⟩
    · exact ⟨sort, by simp [array, SmtSort.range], tracks.chained made⟩
    · exact tracks.chained old
  · rcases cases made' with ⟨rfl, rfl⟩ | ⟨other, old, _⟩
    · exact ⟨cell, boundCell, by simp [cellSort, array, SmtSort.range, cellSorted.2]⟩
    · obtain ⟨d, bound, sort⟩ := tracks.held old
      exact ⟨d, indexes.keeps _ _ other bound, sort⟩

end

/-- What a write through remembered arrays makes of them. -/
def stored : List IndexLink → Term → Term
  | [], t => t
  | link :: up, t => stored up (.store link.baseValue link.key t)

theorem Tracks.writeUp (tracks : Tracks root s refs p) (reaches : Reaches p.links root v up) (chained : Chained s up)
    (valued : t.HasSort (cellSort s up)) (keys : List Term) :
    ∃ q, Runs (writeUp up v t keys) p ((up.map IndexLink.key).reverse ++ keys) q ∧ Tracks root s refs q ∧
      q.bindings.get? root = some (.term (stored up t)) := by
  induction up generalizing p v t keys with
  | nil =>
    have written := tracks.bind reaches valued
    cases reaches
    exact ⟨_, by simp [Machine.writeUp], written, by simp [Path.bind, stored]⟩
  | cons link up ih =>
    have written := tracks.bind reaches valued
    cases reaches with
    | step linked above =>
      obtain ⟨fits, array, chained⟩ := chained
      obtain ⟨arraySorted, keySorted⟩ := tracks.sorted.links v link linked
      obtain ⟨built, outer⟩ := mkStore_of_sorts ⟨arraySorted, array⟩ keySorted valued
      obtain ⟨q, runs, tracks', bound⟩ := ih written above chained (fits ▸ outer) (link.key :: keys)
      refine ⟨q, ?_, tracks', bound⟩
      simp only [Machine.writeUp, runs_bind, runs_modify, runs_sorted]
      exact ⟨⟨⟩, _, rfl, _, _, ⟨built, rfl⟩, by simpa using runs⟩

theorem Tracks.write (tracks : Tracks root s refs p) (made : refs target.id = some (link :: up))
    (valued : (p.valueOf M.contract source).1 = .term t) (fits : t.sort = link.baseValue.sort.range)
    (pinnable : M.tracking.writtenKey = true → ∀ other ∈ link :: up, other.key.sort = .int) :
    ∃ q, Runs (M.exec loc (.assignment target source)) p none q ∧ Tracks root s refs q ∧ t.WellSorted ∧
      q.bindings.get? root = some (.term (stored (link :: up) t)) := by
  obtain ⟨r, grows, sorted, _, _, _, assigns⟩ := assignment_assigns loc target valued
  have before := tracks.grows grows
  have sorted := sorted before.sorted.bindings
  obtain ⟨q, runs, after, bound⟩ := before.writeUp (before.reaches made) (before.chained made) ⟨sorted, fits⟩ []
  rw [append_nil] at runs
  have ints (on : M.tracking.writtenKey = true) (k : Term) (among : k ∈ ((link :: up).map IndexLink.key).reverse) :
      k.sort = .int := by
    obtain ⟨other, listed, rfl⟩ := mem_map.mp (mem_reverse.mp among)
    exact pinnable on other listed
  obtain ⟨log, records, _⟩ := recordKeys_pins ints q target
  exact ⟨_, assigns _ (assign_of_writeUp (before.reaches made) runs records),
    ⟨{ after.sorted with }, after.reaches, after.chained, after.held⟩, sorted, bound⟩

theorem stored_rebuilds (remembered : ∀ link ∈ up, link.baseValue.WellSorted ∧ link.key.WellSorted)
    (chained : Chained s up) (valued : t.HasSort (cellSort s up)) (E : Env) :
    (stored up t).eval E = rebuild (levels E up) (t.eval E) ∧ Datum.Fits (levels E up) (t.eval E) := by
  induction up generalizing t with
  | nil => exact ⟨rfl, trivial⟩
  | cons link up ih =>
    obtain ⟨⟨array, keyed⟩, remembered⟩ := forall_mem_cons.mp remembered
    obtain ⟨fits, shape, chained⟩ := chained
    obtain ⟨_, outer⟩ := mkStore_of_sorts ⟨array, shape⟩ keyed valued
    obtain ⟨rebuilt, inside⟩ := ih remembered chained (fits ▸ outer)
    have holds : (link.level E).copy.sort = .array (link.level E).key.sort (t.eval E).sort := by
      simp only [IndexLink.level, Term.sort_eval E _ array, Term.sort_eval E _ keyed, valued.sort_eval E]
      exact shape
    rw [levels, map_cons, reverse_cons, rebuild_append]
    exact ⟨rebuilt, fits_append holds inside⟩

/-- The instructions run, and the root holds what the last write made, whatever array the writes are meant for. -/
theorem RefRun.root_after (run : RefRun M root s loc p refs is writes) (tracks : Tracks root s refs p)
    (bound : p.bindings.get? root = some (.term a)) :
    ∃ q b, Runs (M.execAll loc is) p none q ∧ q.bindings.get? root = some (.term b) ∧ (writes = [] → b = a) ∧
      (writes ≠ [] → ∀ E x, b.eval E = writes.foldl (RefWrite.perform E) x ↔ LastUpToDate E x writes) := by
  induction run generalizing a with
  | @done _ p => exact ⟨p, a, by simp [execAll], bound, fun _ => rfl, fun some => (some rfl).elim⟩
  | index made untied keyed fits assumable _ ih =>
    obtain ⟨r, runs, tracks', keeps⟩ := tracks.index made untied keyed fits assumable
    rw [show (outcome _ _).2 = r from congrArg Prod.snd runs] at ih
    obtain ⟨q, b, runs', held, kept⟩ := ih tracks' (keeps _ bound)
    exact ⟨q, b, runs_bind.mpr ⟨none, r, runs, runs'⟩, held, kept⟩
  | @write _ p refs target _ t link up _ writes made valued fits pinnable _ ih =>
    obtain ⟨r, runs, tracks', sorted, written⟩ := tracks.write made valued fits pinnable
    rw [show (outcome _ _).2 = r from congrArg Prod.snd runs] at ih
    obtain ⟨q, b, runs', held, unwritten, last⟩ := ih tracks' written
    refine ⟨q, b, runs_bind.mpr ⟨none, r, runs, runs'⟩, held, fun none => (cons_ne_nil _ _ none).elim, fun _ E x => ?_⟩
    cases writes with
    | nil =>
      cases unwritten rfl
      have remembered := (tracks.reaches made).remembered tracks.sorted
      obtain ⟨rebuilt, fits⟩ := stored_rebuilds remembered (tracks.chained made) ⟨sorted, fits⟩ E
      rw [rebuilt]
      exact rebuild_eq_setAt_iff fits x
    | cons next rest => exact last (cons_ne_nil _ _) E _

/-- Where keys and values have the sorts of the arrays, the instructions run, and the root keeps all their writes
exactly when the references of the last write remember what the writes before it made. -/
theorem root_keeps_writes_iff {root : VarId} {refs : Refs} {loc : Location} {is : List Instruction}
    {writes : List RefWrite} {a : Term} (tracks : Tracks root a.sort refs p)
    (bound : p.bindings.get? root = some (.term a)) (run : RefRun M root a.sort loc p refs is writes) :
    ∃ q b, Runs (M.execAll loc is) p none q ∧ q.bindings.get? root = some (.term b) ∧
      ∀ E : Env, b.eval E = writes.foldl (RefWrite.perform E) (a.eval E) ↔ LastUpToDate E (a.eval E) writes := by
  obtain ⟨q, b, runs, held, unwritten, written⟩ := run.root_after tracks bound
  refine ⟨q, b, runs, held, fun E => ?_⟩
  cases writes with
  | nil =>
    cases unwritten rfl
    exact ⟨fun _ => trivial, fun _ => rfl⟩
  | cons w rest => exact written (cons_ne_nil _ _) E _

/-! Two references into one mapping are made before either is written through. -/

def ledger : Variable := ⟨"ledger", .state, .mapping .uint256 .uint256⟩

def firstCell : Variable := ⟨"REF_1", .reference "swap", .uint256⟩

def secondCell : Variable := ⟨"REF_2", .reference "swap", .uint256⟩

def swapBody : List Instruction :=
  [.index firstCell ledger (.const (.int 1)), .index secondCell ledger (.const (.int 2)),
    .assignment firstCell (.const (.int 1)), .assignment secondCell (.const (.int 2))]

def swapMachine : Machine where
  program := ⟨[]⟩
  contract := default
  contractId := 0
  tracking := {}
  config := {}

def ledgerSymbol : Term := .var "ledger" (.array .int .int)

def swapStart : Path := (Path.start 0 ⟨0, 0⟩ 0 "swap").bind ledger.id (.term ledgerSymbol)

def swapWrites : List RefWrite :=
  [⟨[⟨ledger.id, ledgerSymbol, .int 1⟩], .int 1⟩, ⟨[⟨ledger.id, ledgerSymbol, .int 2⟩], .int 2⟩]

theorem swap_run :
    RefRun swapMachine ledger.id ledgerSymbol.sort (.start ⟨0, 0⟩ 0) swapStart (.only ledger.id) swapBody
      swapWrites := by
  have nothing {p : Path} {keys : List Term} {cell : SmtSort} : Assumable swapMachine p "ledger" keys cell :=
    ⟨nofun, nofun⟩
  exact .index rfl (by decide) rfl rfl nothing (.index rfl (by decide) rfl rfl nothing
    (.write rfl rfl rfl nofun (.write rfl rfl rfl nofun .done)))

theorem swap_tracks : Tracks ledger.id ledgerSymbol.sort (.only ledger.id) swapStart := by
  refine tracks_only ⟨fun v t bound => ?_, nofun⟩ rfl rfl
  simp only [swapStart, Path.bind, Table.get?_insert] at bound
  split at bound
  · cases bound
    trivial
  · cases bound

theorem swap_keeps_writes_iff : Tracks ledger.id ledgerSymbol.sort (.only ledger.id) swapStart ∧
    RefRun swapMachine ledger.id ledgerSymbol.sort (.start ⟨0, 0⟩ 0) swapStart (.only ledger.id) swapBody swapWrites ∧
    ∃ q b, Runs (swapMachine.execAll (.start ⟨0, 0⟩ 0) swapBody) swapStart none q ∧
      q.bindings.get? ledger.id = some (.term b) ∧
      ∀ E : Env, b.eval E = swapWrites.foldl (RefWrite.perform E) (ledgerSymbol.eval E) ↔
        LastUpToDate E (ledgerSymbol.eval E) swapWrites :=
  ⟨swap_tracks, swap_run, root_keeps_writes_iff swap_tracks rfl swap_run⟩

/-- The second write undoes the first. -/
theorem earlier_write_lost : RefRun swapMachine ledger.id ledgerSymbol.sort (.start ⟨0, 0⟩ 0) swapStart
      (.only ledger.id) swapBody swapWrites ∧
    ∃ q b, Runs (swapMachine.execAll (.start ⟨0, 0⟩ 0) swapBody) swapStart none q ∧
      q.bindings.get? ledger.id = some (.term b) ∧
      b.eval default ≠ swapWrites.foldl (RefWrite.perform default) (ledgerSymbol.eval default) := by
  refine ⟨swap_run, _, .store ledgerSymbol (.int 2) (.int 2), rfl, rfl, fun same => ?_⟩
  have apart : int 1 ≠ int 2 := nofun
  have shape : (ledgerSymbol.eval default).sort = .array .int .int := rfl
  have found : ((Term.store ledgerSymbol (.int 2) (.int 2)).eval default).select (.int 1) = .int 0 :=
    select_store_other shape rfl rfl apart
  have meant : (swapWrites.foldl (RefWrite.perform default) (ledgerSymbol.eval default)).select (.int 1) =
      .int 1 :=
    (select_store_other ((sort_store _ _ _).trans shape) rfl rfl apart).trans
      (select_store_same shape rfl)
  rw [same, meant] at found
  cases found

end Machine

end TokenAudit
