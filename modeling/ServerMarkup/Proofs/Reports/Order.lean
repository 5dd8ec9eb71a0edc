/-
# The order of the diagnostics

The items of a file report one after the other, and each of them in the order of its tokens
(`Reported`), so the diagnostics about a file stand in the order of its text.  What an included file
reports stands between them and is about other files, since no file is parsed inside of itself
(`tells_parseFile`).

The starts of the diagnostics increase strictly but for pairs of one kind: a report about nothing,
behind the name of an attribute that ends in a hyphen, and one about the construct that touches this
name begin at the same character (`Report.Collides`, `Project.pairwise_reports_iff`).
-/

import Mathlib.Data.List.Nodup
import ServerMarkup.Parse.Output
import ServerMarkup.Proofs.Failure.Outcome
import ServerMarkup.Proofs.Include.Chains
import ServerMarkup.Proofs.Reports.Places
import ServerMarkup.Types.Catalog

namespace ServerMarkup

/-- Both reports begin where a construct does: the first is about nothing, behind the name of an
attribute, and the second about the construct. -/
structure Report.Collides (all : List Token) (r r' : Report) : Prop where
  bare : r.Bare all
  opens : r'.Opens
  same : r.start = r'.start
  construct : ∃ v ∈ all, v.kind.interrupts = true ∧ v.start = r'.start

/-- The reports about a file come one after the other in its text, none of them before the tokens
`ts`; the others are about none of the files that are being parsed. -/
structure Ordered (s : Source) (parsing : List String) (all ts : List Token) (rs : List Report) :
    Prop where
  file : ∀ r ∈ rs, r.2.file = s.file ∨ nameIn (s.file :: parsing) r.2.file = false
  order : rs.Pairwise fun r r' => r.2.file = s.file → r'.2.file = s.file →
    r.start < r'.start ∨ r.Collides all r'
  begun : ∀ r ∈ rs, r.2.file = s.file → ∃ t ∈ ts, r.From t

section
variable {s : Source} {parsing : List String} {all ts us : List Token} {t : Token}
  {r r' : Report} {rs rs' : List Report}

namespace Report

/-- What begins with a token, or behind its start, does not begin before it. -/
theorem From.le (h : r.From t) : t.start ≤ r.start :=
  h.elim Nat.le_of_lt fun touches => Nat.le_of_eq touches.1

/-- A report that begins before a token, and one that begins with it or later. -/
theorem lt_or_collides (mem : t ∈ all) (before : r.Before all t) (later : r'.From t) :
    r.start < r'.start ∨ r.Collides all r' := by
  obtain lt | ⟨touches, bare⟩ := before
  · exact .inl (Nat.lt_of_lt_of_le lt later.le)
  obtain lt | ⟨same, construct, opens⟩ := later
  · exact .inl (touches ▸ lt)
  · exact .inr ⟨bare construct, opens, touches.trans same, t, mem, construct, same⟩

end Report

theorem notMem_files (away : nameIn (s.file :: parsing) r.2.file = false) : r.2.file ≠ s.file :=
  fun same => notMem_of_nameIn away (same ▸ List.mem_cons_self)

namespace Ordered

theorem nil : Ordered s parsing all ts [] :=
  ⟨List.forall_mem_nil _, .nil, List.forall_mem_nil _⟩

/-- The reports of an item. -/
theorem of_reported (h : Reported s all t us rs) : Ordered s parsing all (t :: ts) rs where
  file r mem := .inl (h.file r mem)
  order := h.order.imp fun lt _ _ => .inl lt
  begun r mem _ := ⟨t, List.mem_cons_self, h.begun r mem⟩

/-- What an included file reports. -/
theorem of_away (away : ∀ r ∈ rs, nameIn (s.file :: parsing) r.2.file = false) :
    Ordered s parsing all ts rs where
  file r mem := .inr (away r mem)
  order := List.pairwise_of_forall_mem_list fun r mem _ _ own =>
    absurd own (notMem_files (away r mem))
  begun r mem own := absurd own (notMem_files (away r mem))

/-- Reports of an item before those of the next ones. -/
theorem append (h : Ordered s parsing all ts rs) (rest : Ordered s parsing all us rs')
    (part : us ⊆ ts) (known : us ⊆ all)
    (before : ∀ r ∈ rs, r.2.file = s.file → ∀ v ∈ us, r.Before all v) :
    Ordered s parsing all ts (rs ++ rs') where
  file := List.forall_mem_append.2 ⟨h.file, rest.file⟩
  order := by
    refine List.pairwise_append.2 ⟨h.order, rest.order, fun r mem r' mem' own own' => ?_⟩
    obtain ⟨v, among, later⟩ := rest.begun r' mem' own'
    exact Report.lt_or_collides (known among) (before r mem own v among) later
  begun := by
    refine List.forall_mem_append.2 ⟨h.begun, fun r mem own => ?_⟩
    obtain ⟨v, among, later⟩ := rest.begun r mem own
    exact ⟨v, part among, later⟩

/-- The reports of an item, or of a file that is included in its place, before those of the next
items. -/
theorem read (h : s.Spaces (t :: ts)) (part : t :: ts <:+ all)
    (told : (Item.read t ts).1.Tells rs ∨
      ∀ r ∈ rs, nameIn (s.file :: parsing) r.2.file = false)
    (rest : Ordered s parsing all (ts.drop (Item.read t ts).2) rs') :
    Ordered s parsing all (t :: ts) (rs ++ rs') := by
  have later : ts.drop (Item.read t ts).2 <:+ t :: ts :=
    (List.drop_suffix _ ts).trans (List.suffix_cons t ts)
  have known := (later.trans part).subset
  obtain own | away := told
  · have reported := h.reported_read part own
    exact (of_reported reported).append rest later.subset known fun r mem _ => reported.ended r mem
  · exact (of_away away).append rest later.subset known fun r mem own =>
      absurd own (notMem_files (away r mem))

end Ordered

/-! ### Files -/

/-- The items of a file report in the order of its text. -/
theorem tells_foldlM (p : Project) {nested : Nested} (told : nested.Tells (s.file :: parsing))
    (h : s.Spaces ts) (part : ts <:+ all) (b : Builder) :
    Tells (Ordered s parsing all ts)
      ((itemsOf ts).foldlM (buildItem p (s.file :: parsing) nested) b) := by
  fun_induction itemsOf ts generalizing b with
  | case1 => exact Still.pure.tells .nil
  | case2 t ts form n hr ih =>
    have later : ts.drop n <:+ t :: ts := (List.drop_suffix n ts).trans (List.suffix_cons t ts)
    have read {rs rs' : List Report}
        (own : form.Tells rs ∨ ∀ r ∈ rs, nameIn (s.file :: parsing) r.2.file = false)
        (rest : Ordered s parsing all (ts.drop n) rs') :
        Ordered s parsing all (t :: ts) (rs ++ rs') := by
      refine Ordered.read h part ?_ ?_ <;> rwa [hr]
    rw [List.foldlM_cons]
    exact (tells_buildItem p told b _).seq (ih (h.tail.drop n) (later.trans part)) .nil
      fun _ _ => read

/-- A file reports in the order of its text, and else what included files do. -/
theorem tells_buildItems (p : Project) {nested : Nested} (path text : String) (b : Builder)
    (stop : Position) (told : nested.Tells (path :: parsing)) :
    Tells (Ordered (.of path text) parsing (tokenize path text) (tokenize path text))
      (buildItems p (path :: parsing) nested b (itemsOf (tokenize path text)) stop) := by
  have items := tells_foldlM (s := .of path text) p told (spaces_tokenize path text)
    (List.suffix_refl _) b
  exact items.before fun b => b.still_finish stop

/-- A file reports nothing in the files that are being parsed, at any depth of included files. -/
theorem tells_parseFile (p : Project) (depth : Nat) (parsing : List String) :
    (parseFile p depth parsing).Tells parsing := by
  induction depth generalizing parsing with
  | zero => exact fun _ _ _ _ _ => Still.pure.tells (List.forall_mem_nil _)
  | succ depth ih =>
    intro path text var outer away
    refine (tells_buildItems p path text _ _ (ih (path :: parsing))).mono fun rs told r mem => ?_
    obtain own | other := told.file r mem
    · rw [own]
      exact away
    · exact nameIn_eq_false.2 fun f known =>
        nameIn_eq_false.1 other f (List.mem_cons_of_mem path known)

/-- A file reports in the order of its text, however deep files may be nested in it. -/
theorem ordered_parseFile (p : Project) (depth : Nat) (parsing : List String)
    (path text var : String) (outer : Outer) :
    Tells (Ordered (.of path text) parsing (tokenize path text) (tokenize path text))
      (parseFile p depth parsing path text var outer) := by
  cases depth with
  | zero => exact Still.pure.tells .nil
  | succ depth => exact tells_buildItems p path text _ _ (tells_parseFile p depth _)

end

/-! ### Outputs -/

/-- The diagnostics about a file, but for that of a failure. -/
def ParseOutput.about (out : ParseOutput) (file : String) : List Diagnostic :=
  out.diagnostics.filter fun d => d.span.file == file && d.code != .parseFailure

/-- The diagnostics about a file are those of the session, failed or not. -/
theorem Project.about_parseWith (p : Project) (path text : String) (registry : Registry) :
    (p.parseWith path text registry).about (normalPath path) =
      (p.run path text registry).2.diagnostics.filter (·.span.file == normalPath path) := by
  have codes (d : Diagnostic) := p.code_ne_of_mem_run path text registry (d := d)
  have own : (p.run path text registry).2.diagnostics.filter
      (fun d => d.span.file == normalPath path && d.code != .parseFailure) =
        (p.run path text registry).2.diagnostics.filter (·.span.file == normalPath path) :=
    List.filter_congr fun d mem => by simp [codes d mem]
  rw [← own]
  unfold ParseOutput.about Project.parseWith
  rcases p.run path text registry with ⟨_ | body, s⟩
  · simp [Session.failed, Session.report]
  · rfl

namespace Project

variable (p : Project) (path text : String) (registry : Registry)

/-- The reports of a parse about its file. -/
def reports : List Report :=
  ((p.parseWith path text registry).about (normalPath path)).map Diagnostic.report

theorem pairwise_reports : (p.reports path text registry).Pairwise fun r r' =>
    r.start < r'.start ∨ r.Collides (tokenize (normalPath path) text) r' := by
  obtain ⟨ds, all, told⟩ := ordered_parseFile p (includeDepth p (normalPath path) text) []
    (normalPath path) text "ctrl" .none
    (Session.start p.options (normalPath path) text (registry.addDefaults p.options))
  change (p.run path text registry).2.diagnostics = [] ++ ds at all
  rw [reports, about_parseWith, all, List.nil_append, List.pairwise_map, List.pairwise_filter]
  refine (List.pairwise_map.1 told.order).imp fun order own own' => ?_
  exact order (beq_iff_eq.1 own) (beq_iff_eq.1 own')

/-- **The diagnostics about a file stand in the order of its text.**  Two begin at the same
character only if the first is about nothing, behind a name that ends in a hyphen, and the second
about the server comment or directive that touches the name; so the starts increase strictly exactly
if there are no such two. -/
theorem pairwise_reports_iff :
    (p.reports path text registry).Pairwise (fun r r' =>
        r.start < r'.start ∨ r.Collides (tokenize (normalPath path) text) r') ∧
      ((p.reports path text registry).Pairwise (fun r r' => r.start < r'.start) ↔
        ∀ r ∈ p.reports path text registry, ∀ r' ∈ p.reports path text registry,
          ¬ r.Collides (tokenize (normalPath path) text) r') := by
  have order := p.pairwise_reports path text registry
  refine ⟨order, fun strict r mem r' mem' collides => ?_, fun none => ?_⟩
  · -- The two differ in their codes, so that they stand at different places of the list.
    have apart : ((p.reports path text registry).map Report.start).Nodup :=
      (List.pairwise_map.2 strict).imp Nat.ne_of_lt
    obtain rfl := List.inj_on_of_nodup_map apart mem mem' collides.same
    have opens := collides.opens
    simp [Report.Opens, collides.bare.code] at opens
  · exact order.imp_of_mem fun mem mem' => (·.resolve_right (none _ mem _ mem'))

/-- If no name that ends in a hyphen is touched by a construct, the starts increase strictly. -/
theorem strict_reports (apart : ∀ t ∈ tokenize (normalPath path) text, t.kind = .attribute →
    t.text.chars.getLast? = some '-' → ∀ v ∈ tokenize (normalPath path) text,
      v.kind.interrupts = true → t.stop ≠ v.start) :
    (p.reports path text registry).Pairwise fun r r' => r.start < r'.start := by
  refine (p.pairwise_reports path text registry).imp fun order => order.resolve_right ?_
  rintro ⟨⟨-, -, t, mem, name, hyphen, stop⟩, -, same, v, mem', construct, start⟩
  exact apart t mem name hyphen v mem' construct (by rw [stop, same, start])

/-- A project with a control that has a collection. -/
def collecting : Project :=
  ⟨(Catalog.empty.add ((TypeDef.empty "WebForms.UI.WebControls" "X").withMember
    (.collection "Data" (.plain "" "Y")))).resolver, ⟨[], []⟩, .standard⟩

/-- A page with a name that ends in a hyphen, and a comment that touches it. -/
def touching : String :=
  "<asp:X runat=\"server\" Data-<%--#include file=\"x\"--%>></asp:X>"

/-- The last part of the name and the file that is not found are reported at the same character. -/
theorem reports_touching :
    (collecting.reports "page.aspx" touching .empty).map Report.start = [27, 27] ∧
      ¬ (collecting.reports "page.aspx" touching .empty).Pairwise fun r r' =>
        r.start < r'.start := by
  decide +kernel

end Project

end ServerMarkup
