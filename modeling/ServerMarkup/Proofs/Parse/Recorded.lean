/-
# Two readings of a directive's attributes

The attributes of a directive are recorded in its node by their names, where a name that comes again
puts its value in the place of the earlier one (`recordOf`); acting on the directive looks for the
first attribute with a name (`DirectiveAttributes.find?`).  So of the values under one name the node
keeps the last, and the first is acted on, and these are the same exactly if there is at most one:
in a source no two attributes have the same value, since none begins where another one does
(`start_lt_directiveAttributes`).

Register and Import directives are acted on by the values that are found under four names
(`Project.direct_congr`), so acting on what is recorded does the same if none of these comes twice.
-/

import ServerMarkup.Proofs.Controls.Scan
import ServerMarkup.Proofs.Reports.Places

namespace ServerMarkup

/-! ### The first and the last value -/

/-- The values under the name, in any letter case. -/
def DirectiveAttributes.valuesOf (as : DirectiveAttributes) (name : String) : List Excerpt :=
  (List.filter (fun a => a.1.isNamed name) as).map Prod.snd

/-- The attributes that a record tells of. -/
def DirectiveAttributes.ofRecord (table : List (String × Excerpt)) : DirectiveAttributes :=
  table.map fun e => (⟨e.1, e.2.span⟩, e.2)

section
variable {as : DirectiveAttributes} {table : List (String × Excerpt)} {name : String}

/-- The first value is found. -/
theorem find?_eq_head? (as : DirectiveAttributes) (name : String) :
    as.find? name = (as.valuesOf name).head? := by
  rw [DirectiveAttributes.find?, DirectiveAttributes.valuesOf, List.head?_map, List.head?_filter]

theorem isNamed_iff {e : Excerpt} : e.isNamed name = true ↔ lowered e.value = lowered name :=
  sameName_iff

/-- Values put in the place of others change no key. -/
theorem find?_replaced (table : List (String × Excerpt)) (key : String) (value : Excerpt)
    (k : String) :
    (table.map fun e => if e.1 == key then (key, value) else e).find? (·.1 == k) =
      (table.find? (·.1 == k)).map fun e => if e.1 == key then (key, value) else e := by
  rw [List.find?_map]
  refine congrArg (fun keyed => (table.find? keyed).map _) (funext fun e => ?_)
  rw [Function.comp_apply]
  split
  · next same => rw [beq_iff_eq.1 same]
  · rfl

/-- An entry is found under its key, and leaves the others as they are. -/
theorem recorded?_recordEntry (key : String) (value : Excerpt) :
    recorded? (recordEntry table key value) name =
      if key = lowered name then some value else recorded? table name := by
  unfold recorded? recordEntry
  cases found : table.find? (·.1 == lowered name) with
  | none =>
    have absent := List.find?_eq_none.1 found
    split
    · next known =>
      have other : key ≠ lowered name := by
        rintro rfl
        obtain ⟨e, mem, same⟩ := List.any_eq_true.1 known
        exact absent e mem same
      rw [find?_replaced, found, if_neg other]
      rfl
    · rw [List.find?_append, found]
      by_cases here : key = lowered name <;> simp [here]
  | some e =>
    have keyed := List.find?_some found
    have same : e.1 = lowered name := beq_iff_eq.1 keyed
    have mem := List.mem_of_find?_eq_some found
    split
    · rw [find?_replaced, found]
      by_cases here : key = lowered name
      · simp [same, here]
      · simp [same, here, Ne.symm here]
    · next new =>
      have other : key ≠ lowered name := fun here =>
        new (List.any_eq_true.2 ⟨e, mem, beq_iff_eq.2 (same.trans here.symm)⟩)
      rw [List.find?_append, found, if_neg other]
      rfl

/-- The last value is recorded. -/
theorem recorded?_recordOf (as : DirectiveAttributes) (name : String) :
    recorded? (recordOf as) name = (as.valuesOf name).getLast? := by
  induction as using List.reverseRecOn with
  | nil => rfl
  | append_singleton as a ih =>
    rw [recordOf, List.foldl_append, List.foldl_cons, List.foldl_nil, recorded?_recordEntry,
      DirectiveAttributes.valuesOf, List.filter_append, List.map_append]
    split
    · next here => simp [isNamed_iff.2 here]
    · next other =>
      have skipped : a.1.isNamed name = false :=
        Bool.eq_false_iff.2 fun named => other (isNamed_iff.1 named)
      rw [List.filter_cons_of_neg (by simp [skipped]), List.filter_nil, List.map_nil,
        List.append_nil]
      exact ih

/-- If the values under the name differ, what is recorded is what is found exactly if there is at
most one. -/
theorem recorded?_eq_find?_iff (apart : (as.valuesOf name).Nodup) :
    recorded? (recordOf as) name = as.find? name ↔ (as.valuesOf name).length ≤ 1 := by
  rw [recorded?_recordOf, find?_eq_head?]
  cases hv : as.valuesOf name with
  | nil => simp
  | cons first rest =>
    cases rest with
    | nil => simp
    | cons next rest =>
      have other : first ∉ next :: rest := (List.nodup_cons.1 (hv ▸ apart)).1
      have last : (next :: rest).getLast? ≠ some first := fun same =>
        other (List.mem_of_getLast? same)
      simp [List.getLast?_cons_cons, last]

end

/-! ### Acting on a record -/

/-- The keys of a record are small. -/
theorem lowered_of_mem_recordOf {as : DirectiveAttributes} {e : String × Excerpt}
    (mem : e ∈ recordOf as) : lowered e.1 = e.1 := by
  induction as using List.reverseRecOn generalizing e with
  | nil => cases mem
  | append_singleton as a ih =>
    rw [recordOf, List.foldl_append, List.foldl_cons, List.foldl_nil, ← recordOf,
      recordEntry] at mem
    split at mem
    · obtain ⟨x, known, rfl⟩ := List.mem_map.1 mem
      split
      · exact lowered_lowered a.1.value
      · exact ih known
    · obtain known | new := List.mem_append.1 mem
      · exact ih known
      · rw [List.mem_singleton.1 new]
        exact lowered_lowered a.1.value

/-- In what a record tells of, a name has the value that is recorded. -/
theorem find?_ofRecord {table : List (String × Excerpt)}
    (small : ∀ e ∈ table, lowered e.1 = e.1) (name : String) :
    (DirectiveAttributes.ofRecord table).find? name = recorded? table name := by
  unfold DirectiveAttributes.find? DirectiveAttributes.ofRecord recorded?
  rw [List.find?_map, Option.map_map]
  refine congrArg (Option.map _) ?_
  induction table with
  | nil => rfl
  | cons e table ih =>
    obtain ⟨own, others⟩ := List.forall_mem_cons.1 small
    have same : Excerpt.isNamed ⟨e.1, e.2.span⟩ name = (e.1 == lowered name) := by
      rw [Excerpt.isNamed, sameName, own]
    rw [List.find?_cons, List.find?_cons, Function.comp_apply, same, ih others]

/-- The names under which Register and Import directives look for values. -/
def registerNames : List String :=
  ["tagprefix", "namespace", "tagname", "src"]

/-- A directive that does not describe its file is acted on by the values found under four names. -/
theorem Project.direct_congr (p : Project) (file : String) {kind : DirectiveKind}
    {as as' : DirectiveAttributes} (span : Span) (plain : kind.isMain = false)
    (same : ∀ name ∈ registerNames, as'.find? name = as.find? name) :
    p.direct file kind as' span = p.direct file kind as span := by
  have tagPrefix := same "tagprefix" (by simp [registerNames])
  have space := same "namespace" (by simp [registerNames])
  have tagName := same "tagname" (by simp [registerNames])
  have src := same "src" (by simp [registerNames])
  rw [direct, direct, plain, if_neg Bool.false_ne_true, if_neg Bool.false_ne_true, register,
    register, tagPrefix, space, tagName, src]

/-! ### Values in a source -/

section
variable {s : Source} {ts : List Token}

/-- The value of an attribute begins before all that follows it. -/
theorem Source.Spaces.directiveValue_le {t v : Token} (h : s.Spaces (t :: ts))
    (name : t.kind = .attribute) (later : v ∈ ts.drop (Item.valueTokens ts).length) :
    (Item.directiveValue t.text (Item.valueOf ts)).span.start.offset ≤ v.start := by
  cases hv : Item.valueTokens ts with
  | nil =>
    have after := h.stop_le_start (List.mem_of_mem_drop later)
    rw [Item.directiveValue_of_nil hv]
    exact Nat.le_trans (Nat.le_of_eq (congrArg (·.stop.offset) (h.filled_name name).1)) after
  | cons u us =>
    have value : u ∈ Item.valueTokens ts := hv ▸ List.mem_cons_self
    have faithful := h.tail.faithful u ((Item.isPrefix_valueTokens ts).subset value)
    have inner := faithful.verbatim.within.start_le
    have stop := faithful.le_stop
    have behind := h.stop_le_of_value value later
    rw [Item.start_directiveValue hv]
    omega

/-- The values of a directive begin one behind the other. -/
theorem start_lt_directiveAttributes (h : s.Spaces ts) :
    (Item.directiveAttributes ts).1.Pairwise (fun a b =>
        (Item.directiveValue a.1 a.2).span.start.offset <
          (Item.directiveValue b.1 b.2).span.start.offset) ∧
      ∀ a ∈ (Item.directiveAttributes ts).1,
        ∃ t ∈ ts, t.start < (Item.directiveValue a.1 a.2).span.start.offset := by
  fun_induction Item.directiveAttributes ts with
  | case1 | case3 | case4 => exact ⟨.nil, List.forall_mem_nil _⟩
  | case2 t ts hk size as n hr ih =>
    obtain ⟨order, each⟩ := ih (h.tail.drop size)
    rw [hr] at order each
    refine ⟨List.pairwise_cons.2 ⟨fun a mem => ?_, order⟩, List.forall_mem_cons.2 ⟨?_, ?_⟩⟩
    · obtain ⟨u, among, lt⟩ := each a mem
      exact Nat.lt_of_le_of_lt (h.directiveValue_le hk among) lt
    · have filled := (h.filled_name hk).2
      exact ⟨t, List.mem_cons_self, Nat.lt_of_lt_of_le filled (h.stop_le_directiveValue hk)⟩
    · intro a mem
      obtain ⟨u, among, lt⟩ := each a mem
      exact ⟨u, List.mem_cons_of_mem _ (List.mem_of_mem_drop among), lt⟩

end

section
variable {file text : String} {item : Item} {kind : DirectiveKind} {as : DirectiveAttributes}
  {span : Span}

/-- No two attributes of a directive have the same value. -/
theorem nodup_valuesOf (mem : item ∈ itemsOf (tokenize file text))
    (form : item.form = .directive kind as span) (name : String) : (as.valuesOf name).Nodup := by
  obtain ⟨t, us, part, rfl⟩ := exists_read_of_mem_itemsOf mem
  have spaces := ((spaces_tokenize file text).of_suffix part).tail
  obtain ⟨-, read, -⟩ := Item.read_eq_directive form
  have order : as.Pairwise fun a b => a.2.span.start.offset < b.2.span.start.offset := by
    have kept := directiveOf_sublist (Item.directiveAttributes us).1
    rw [read] at kept
    refine List.Pairwise.sublist kept ?_
    rw [List.pairwise_map]
    exact (start_lt_directiveAttributes spaces).1
  refine List.pairwise_map.2 ((order.sublist List.filter_sublist).imp ?_)
  intro a b lt same
  rw [same] at lt
  exact Nat.lt_irrefl _ lt

end

end ServerMarkup
