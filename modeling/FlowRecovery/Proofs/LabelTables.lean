import FlowRecovery.Body
import FlowRecovery.Format.Labels
import Mathlib.Data.Finset.Card

/-!
# What label tables hold

A label table is built by insertions, by merging other tables into it and from lists of named offsets
(`Labels.History`). Written one after the other, the named offsets that go into it determine what it
holds (`Labels.Records`): an offset has the name it was given last and the place where it was first
named, also in the document that the table is written to. `Labels.History.records` says so of every
table, whatever its history.

The label tables of a block are taken out one at a time, the first one that is found, and merged
(`Block.takeLabelsFrom?`). `Block.takeLabels_lossless` says that this comes to an end after as many
rounds as there are tables, that nothing else leaves the block, and what the merged table holds. Merging
them is a history as well, so the general law applies to it.

The lemmas on lists go from a list to the list with one more element at its end, as tables do.
-/

namespace FlowRecovery

/-! ### First occurrences -/

section

variable {α : Type} [DecidableEq α]

/-- A new element comes last, and one that occurs already changes nothing. -/
theorem eraseDups_concat (l : List α) (a : α) :
    (l ++ [a]).eraseDups = if a ∈ l then l.eraseDups else l.eraseDups ++ [a] := by
  rw [List.eraseDups_append]
  split
  · next h => simp [List.removeAll, h]
  · next h => simp [List.removeAll, h, List.eraseDups_cons]

theorem eraseDups_of_nodup {l : List α} (h : l.Nodup) : l.eraseDups = l := by
  induction l using List.reverseRecOn with
  | nil => rfl
  | append_singleton l a ih =>
    obtain ⟨hl, -, hdisjoint⟩ := List.nodup_append.1 h
    have new : a ∉ l := fun ha => hdisjoint a ha a (List.mem_singleton_self a) rfl
    rw [eraseDups_concat, if_neg new, ih hl]

/-- What occurs more than once in the second of two lists can be taken out before. -/
theorem eraseDups_append_eraseDups (l m : List α) :
    (l ++ m.eraseDups).eraseDups = (l ++ m).eraseDups := by
  induction m using List.reverseRecOn with
  | nil => rfl
  | append_singleton m a ih =>
    rw [eraseDups_concat, ← List.append_assoc, eraseDups_concat, ← ih]
    by_cases hm : a ∈ m
    · rw [if_pos hm, if_pos (List.mem_append_right _ hm)]
    · rw [if_neg hm, ← List.append_assoc, eraseDups_concat]
      simp only [List.mem_append, List.mem_eraseDups]

end

/-! ### Last names -/

/-- The name that the offset `o` is given last. -/
def lastName? (o : Offset) (l : List (Offset × String)) : Option String :=
  (l.filter fun entry => entry.1 = o).getLast?.map Prod.snd

theorem lastName?_append (o : Offset) (l m : List (Offset × String)) :
    lastName? o (l ++ m) = (lastName? o m).or (lastName? o l) := by
  rw [lastName?, List.filter_append, List.getLast?_append, Option.map_or]
  rfl

theorem lastName?_concat (o p : Offset) (name : String) (l : List (Offset × String)) :
    lastName? p (l ++ [(o, name)]) = if o = p then some name else lastName? p l := by
  rw [lastName?_append]
  by_cases h : o = p <;> simp [lastName?, h]

theorem lastName?_eq_none {o : Offset} {l : List (Offset × String)} (h : o ∉ l.map Prod.fst) :
    lastName? o l = none := by
  have noEntry : (l.filter fun entry => entry.1 = o) = [] := by
    rw [List.filter_eq_nil_iff]
    intro entry hentry
    rw [decide_eq_true_iff]
    rintro rfl
    exact h (List.mem_map_of_mem hentry)
  rw [lastName?, noEntry]
  rfl

/-- Where no offset is named twice, every name is the last one. -/
theorem nameIn?_eq_lastName? {l : List (Offset × String)} (nodup : (l.map Prod.fst).Nodup) (o : Offset) :
    nameIn? o l = lastName? o l := by
  induction l with
  | nil => rfl
  | cons entry rest ih =>
    obtain ⟨k, name⟩ := entry
    obtain ⟨new, hrest⟩ := List.nodup_cons.1 nodup
    rw [nameIn?, ← List.singleton_append, lastName?_append, ih hrest]
    split
    · next hk =>
      rw [lastName?_eq_none (hk ▸ new)]
      simp [lastName?, hk]
    · next hk => simp [lastName?, hk]

/-- Where no offset is named twice, the offsets and their names make up the list. -/
theorem filterMap_nameIn? {l : List (Offset × String)} (nodup : (l.map Prod.fst).Nodup) :
    ((l.map Prod.fst).filterMap fun o => (nameIn? o l).map fun name => (o, name)) = l := by
  induction l with
  | nil => rfl
  | cons entry rest ih =>
    obtain ⟨k, name⟩ := entry
    obtain ⟨new, hrest⟩ := List.nodup_cons.1 nodup
    have further : ∀ o ∈ rest.map Prod.fst, nameIn? o ((k, name) :: rest) = nameIn? o rest := by
      intro o ho
      rw [nameIn?, if_neg]
      rintro rfl
      exact new ho
    rw [List.map_cons, List.filterMap_cons_some (b := (k, name)) (by simp [nameIn?])]
    rw [List.filterMap_congr fun o ho => by rw [further o ho], ih hrest]

namespace Labels

variable {t u : Labels} {l m : List (Offset × String)}

theorem label?_eq_lastName?_entries (t : Labels) (o : Offset) : t.label? o = lastName? o t.entries :=
  nameIn?_eq_lastName? t.nodup o

/-- The table holds what the named offsets `l`, written one after the other, say: each offset has the
name it was given last, and the offsets come in the order in which they were first named, also in the
document that the table is written to. -/
structure Records (t : Labels) (l : List (Offset × String)) : Prop where
  /-- The last name of an offset counts. -/
  label? : ∀ o, t.label? o = lastName? o l
  /-- The first place of an offset counts. -/
  offsets : t.offsets = (l.map Prod.fst).eraseDups
  /-- Offsets that are named more than once count once. -/
  length : t.length = (l.map Prod.fst).toFinset.card
  /-- The document has the same order and the same names. -/
  toJson : t.toJson = .object ((l.map Prod.fst).eraseDups.filterMap fun o =>
    (lastName? o l).map fun name => (key o, .ofText name))

/-- The names and the order determine the rest. -/
theorem Records.of_offsets (label? : ∀ o, t.label? o = lastName? o l)
    (offsets : t.offsets = (l.map Prod.fst).eraseDups) : t.Records l where
  label? := label?
  offsets := offsets
  length := by
    have same : (l.map Prod.fst).toFinset = t.offsets.toFinset := by
      ext o
      rw [offsets, List.mem_toFinset, List.mem_toFinset, List.mem_eraseDups]
    have nodup : t.offsets.Nodup := t.nodup
    rw [same, List.toFinset_card_of_nodup nodup, Labels.offsets, List.length_map, Labels.length]
  toJson := by
    have entries : t.entries = t.offsets.filterMap fun o => (t.label? o).map fun name => (o, name) :=
      (filterMap_nameIn? t.nodup).symm
    rw [Labels.toJson, entries, List.map_filterMap, offsets]
    simp only [label?, Option.map_map, Function.comp_def]

/-- A table records its own entries. -/
theorem records_entries (t : Labels) : t.Records t.entries :=
  .of_offsets t.label?_eq_lastName?_entries (eraseDups_of_nodup t.nodup).symm

theorem Records.insert (h : t.Records l) (o : Offset) (name : String) :
    (t.insert o name).Records (l ++ [(o, name)]) := by
  have known : o ∈ t.offsets ↔ o ∈ l.map Prod.fst := by rw [h.offsets, List.mem_eraseDups]
  refine .of_offsets (fun p => ?_) ?_
  · rw [label?_insert, lastName?_concat, h.label?]
  · rw [List.map_append, List.map_singleton, eraseDups_concat, ← h.offsets]
    split
    · next ho => exact offsets_insert_of_mem (known.2 ho) name
    · next ho => exact offsets_insert_of_not_mem (fun hmem => ho (known.1 hmem)) name

theorem Records.insertAll (h : t.Records l) (m : List (Offset × String)) :
    (t.insertAll m).Records (l ++ m) := by
  induction m using List.reverseRecOn with
  | nil => rwa [List.append_nil]
  | append_singleton m entry ih =>
    have step := ih.insert entry.1 entry.2
    rw [List.append_assoc] at step
    rwa [Labels.insertAll, List.foldl_append]

theorem Records.merge (ht : t.Records l) (hu : u.Records m) : (t.merge u).Records (l ++ m) := by
  have merged := ht.insertAll u.entries
  refine .of_offsets (fun o => ?_) ?_
  · have inOther : lastName? o u.entries = lastName? o m := by rw [← label?_eq_lastName?_entries, hu.label?]
    rw [Labels.merge, merged.label?, lastName?_append, lastName?_append, inOther]
  · have other : u.entries.map Prod.fst = (m.map Prod.fst).eraseDups := hu.offsets
    rw [Labels.merge, merged.offsets, List.map_append, List.map_append, other, eraseDups_append_eraseDups]

theorem records_empty : (∅ : Labels).Records [] := records_entries ∅

/-- How a label table comes about. -/
inductive History where
  /-- It is new. -/
  | new
  /-- A name is inserted into a table. -/
  | insert (before : History) (o : Offset) (name : String)
  /-- A table is merged into another one. -/
  | merge (before other : History)
  /-- It is made from named offsets. -/
  | collect (l : List (Offset × String))

namespace History

/-- The table that a history leads to. -/
def labels : History → Labels
  | new => ∅
  | insert before o name => before.labels.insert o name
  | merge before other => before.labels.merge other.labels
  | collect l => .ofList l

/-- The named offsets that go into the table, one after the other. -/
def writes : History → List (Offset × String)
  | new => []
  | insert before o name => before.writes ++ [(o, name)]
  | merge before other => before.writes ++ other.writes
  | collect l => l

/-- A table holds what its history wrote. -/
theorem records (h : History) : h.labels.Records h.writes := by
  induction h with
  | new => exact records_empty
  | insert before o name ih => exact ih.insert o name
  | merge before other ihBefore ihOther => exact ihBefore.merge ihOther
  | collect l => exact records_empty.insertAll l

/-- An offset that is named again keeps its place. -/
example : ((new.insert 5 "Begin").merge (collect [(7, "Done"), (5, "Start")])).labels.entries =
    [(5, "Start"), (7, "Done")] := rfl

end History

/-- Tables that are merged one after the other. -/
theorem Records.foldl_merge (h : t.Records l) (tables : List Labels) :
    (tables.foldl Labels.merge t).Records (l ++ tables.flatMap entries) := by
  induction tables generalizing t l with
  | nil => rwa [List.flatMap_nil, List.append_nil]
  | cons u rest ih =>
    rw [List.foldl_cons, List.flatMap_cons, ← List.append_assoc]
    exact ih (h.merge u.records_entries)

/-- The last table that names an offset decides. -/
theorem lastName?_flatMap_entries (o : Offset) (tables : List Labels) :
    lastName? o (tables.flatMap entries) = (tables.filterMap (·.label? o)).getLast? := by
  induction tables using List.reverseRecOn with
  | nil => rfl
  | append_singleton tables t ih =>
    rw [List.flatMap_append, lastName?_append, ih, List.filterMap_append, List.getLast?_append,
      List.flatMap_singleton, ← label?_eq_lastName?_entries]
    cases h : t.label? o <;> simp [h]

end Labels

/-! ### Taking the tables out of a block -/

namespace Block

open Statement

/-- The statement is a label table. -/
def isLabelTable (s : Statement) : Bool := s.isPlain fun token => token.labelTable?.isSome

/-- Takes the label tables out of a block in rounds and merges them into `labels`. Each round takes the
first table that is left. There is no result if the rounds are used up before a round finds no table, or
if no statement stands where a table was found. -/
def takeLabelsFrom? : (rounds : Nat) → Labels → Block → Option (Labels × Block)
  | 0, _, _ => none
  | rounds + 1, labels, b =>
      match b.statements.findIdx? isLabelTable with
      | none => some (labels, b)
      | some i => do
          let (s, rest) ← b.remove? i
          match s.token?.bind Token.labelTable? with
          | some table => takeLabelsFrom? rounds (labels.merge table) rest
          | none => takeLabelsFrom? rounds labels rest

theorem labelTable?_eq_none_iff {s : Statement} :
    s.token?.bind Token.labelTable? = none ↔ isLabelTable s = false := by
  cases s with
  | plain start stop? scope token => cases token <;> simp [token?, Token.labelTable?, isLabelTable, isPlain]
  | escape | composite => simp [token?, isLabelTable, isPlain]

/-- One round takes the first table. -/
theorem exists_of_findIdx? {b : Block} {i : Nat} (h : b.statements.findIdx? isLabelTable = some i) :
    ∃ front s table behind, b.remove? i = some (s, ⟨b.scope, front ++ behind⟩) ∧
      b.statements = front ++ s :: behind ∧ (∀ x ∈ front, isLabelTable x = false) ∧
      s.token?.bind Token.labelTable? = some table := by
  obtain ⟨hi, hs, hfront⟩ := List.findIdx?_eq_some_iff_getElem.1 h
  obtain ⟨table, htable⟩ : ∃ table, b.statements[i].token?.bind Token.labelTable? = some table := by
    rw [← Option.ne_none_iff_exists', Ne, labelTable?_eq_none_iff, hs]
    exact Bool.noConfusion
  refine ⟨b.statements.take i, b.statements[i], table, b.statements.drop (i + 1), ?_, ?_, ?_, htable⟩
  · simp [remove?, splice, adoptAll, List.getElem?_eq_getElem hi]
  · rw [List.getElem_cons_drop, List.take_append_drop]
  · intro x hx
    obtain ⟨j, hj, rfl⟩ := List.mem_take_iff_getElem.1 hx
    simpa using hfront j (by omega)

/-- Taking the tables out takes one round for each of them and one in which none is found. -/
theorem takeLabelsFrom?_eq (rounds : Nat) (labels : Labels) (b : Block) :
    takeLabelsFrom? rounds labels b =
      if b.labelTables.length < rounds then
        some (b.labelTables.foldl Labels.merge labels,
          ⟨b.scope, b.statements.filter fun s => !isLabelTable s⟩)
      else none := by
  induction rounds generalizing labels b with
  | zero => rfl
  | succ rounds ih =>
    rw [takeLabelsFrom?]
    cases h : b.statements.findIdx? isLabelTable with
    | none =>
      have others := List.findIdx?_eq_none_iff.1 h
      have noTable : b.labelTables = [] :=
        List.filterMap_eq_nil_iff.2 fun s hs => labelTable?_eq_none_iff.2 (others s hs)
      have all : (b.statements.filter fun s => !isLabelTable s) = b.statements :=
        List.filter_eq_self.2 fun s hs => by rw [others s hs, Bool.not_false]
      simp [noTable, all]
    | some i =>
      obtain ⟨front, s, table, behind, hremove, hsplit, hfront, htable⟩ := exists_of_findIdx? h
      have noTable : front.filterMap (fun s => s.token?.bind Token.labelTable?) = [] :=
        List.filterMap_eq_nil_iff.2 fun s hs => labelTable?_eq_none_iff.2 (hfront s hs)
      have isTable : isLabelTable s = true := by
        rw [← Bool.not_eq_false, ← labelTable?_eq_none_iff, htable]
        exact Option.some_ne_none table
      have tables : b.labelTables = table :: Block.labelTables ⟨b.scope, front ++ behind⟩ := by
        simp [labelTables, hsplit, noTable, htable]
      have others : (b.statements.filter fun s => !isLabelTable s) =
          (front ++ behind).filter fun s => !isLabelTable s := by
        simp [hsplit, isTable]
      simp only [hremove, Option.bind_eq_bind, Option.bind_some, htable, ih, tables, others,
        List.length_cons, List.foldl_cons, Nat.add_lt_add_iff_right]

theorem takeLabels_eq (b : Block) :
    b.takeLabels =
      (b.labelTables.foldl Labels.merge ∅, ⟨b.scope, b.statements.filter fun s => !isLabelTable s⟩) := by
  have others : (fun s : Statement => (s.token?.bind Token.labelTable?).isNone) = fun s => !isLabelTable s := by
    funext s
    rw [Bool.eq_iff_iff, Option.isNone_iff_eq_none, labelTable?_eq_none_iff, Bool.not_eq_true']
  rw [takeLabels, others]

/-- **The label tables of a block are taken out without loss.** Taking them out one at a time comes to an
end, in as many rounds as there are tables and one more. The statements that are left are those of the
block that are no label tables. The merged table records the entries of all of them, one table after the
other, so that the last table that names an offset decides. And any table records what went into it. -/
theorem takeLabels_lossless (b : Block) :
    (∀ rounds, takeLabelsFrom? rounds ∅ b =
      if b.labelTables.length < rounds then some b.takeLabels else none) ∧
    b.takeLabels.2 = ⟨b.scope, b.statements.filter fun s => !isLabelTable s⟩ ∧
    (∀ o, b.takeLabels.1.label? o = (b.labelTables.filterMap (·.label? o)).getLast?) ∧
    b.takeLabels.1.Records (b.labelTables.flatMap Labels.entries) ∧
    ∀ h : Labels.History, h.labels.Records h.writes := by
  have merged : b.takeLabels.1.Records (b.labelTables.flatMap Labels.entries) := by
    rw [takeLabels_eq]
    exact Labels.records_empty.foldl_merge b.labelTables
  refine ⟨fun rounds => ?_, ?_, fun o => ?_, merged, Labels.History.records⟩
  · rw [takeLabelsFrom?_eq, takeLabels_eq]
  · rw [takeLabels_eq]
  · rw [merged.label?, Labels.lastName?_flatMap_entries]

end Block

end FlowRecovery
