/-
# The included files are on record

The document lists each included file once, under the path that it has been read by, where a history
records it first, and with the digest of what has been read.  What a parse gives stands in the file
that is parsed or in one on the list: an included file is on record before anything of it is read
(`Upholds.within`), so a property of all that stands in these files holds of the whole output
(`within_parseFile`).
-/

import ServerMarkup.Proofs.History.Runs
import ServerMarkup.Proofs.Spans.InFiles

namespace ServerMarkup

/-! ### The list -/

/-- The path of the file that the deed includes. -/
def Deed.includedPath? : Deed → Option String
  | addInclude path _ => some path
  | _ => none

/-- The paths of the files that are included, in order, each as often as it is. -/
def includedPaths (ds : List Deed) : List String :=
  ds.filterMap Deed.includedPath?

/-- The digest of an included file is that of the text that is read for its path. -/
def Include.Read (p : Project) (i : Include) : Prop :=
  ∃ text, p.files.read i.path = .ok text ∧ i.hash = contentHash text

theorem eraseDups_concat (paths : List String) (path : String) : (paths ++ [path]).eraseDups =
    if path ∈ paths then paths.eraseDups else paths.eraseDups ++ [path] := by
  rw [List.eraseDups_append]
  by_cases known : path ∈ paths <;> simp [List.removeAll, List.eraseDups_cons, known]

section
variable {p : Project} {m : Moment}

theorem Deed.includes_change {d : Deed} (other : d.includedPath? = none) (s : Session) :
    (d.change s).document.includes = s.document.includes := by
  cases d with
  | addInclude path text => cases other
  | addImport value => rw [change, Session.withDocument, Document.addImport_eq]
  | _ => rfl

/-- An included file is at the end of the list, unless its path is on it. -/
theorem map_path_addInclude (d : Document) (path hash : String) :
    (d.addInclude path hash).includes.map Include.path =
      if path ∈ d.includes.map Include.path then d.includes.map Include.path
      else d.includes.map Include.path ++ [path] := by
  have known : d.includesPath path = true ↔ path ∈ d.includes.map Include.path := by
    simp [Document.includesPath]
  unfold Document.addInclude
  by_cases listed : path ∈ d.includes.map Include.path
  · rw [if_pos (known.2 listed), if_pos listed]
  · rw [if_neg (mt known.1 listed), if_neg listed, List.map_append, List.map_singleton]

/-- **The list has each included path where it comes first.** -/
theorem Moment.includes_past (none : m.session.document.includes = []) (ds : List Deed) :
    (m.past ds).session.document.includes.map Include.path = (includedPaths ds).eraseDups := by
  induction ds using List.reverseRecOn with
  | nil => rw [past_nil, none]; rfl
  | append_singleton ds d ih =>
    rw [past_append, includedPaths, List.filterMap_append]
    rw [includedPaths] at ih
    cases hd : d.includedPath? with
    | none =>
      have same : ((m.past ds).past [d]).session.document.includes =
          (m.past ds).session.document.includes := d.includes_change hd _
      rw [same, ih, List.filterMap_cons, hd, List.filterMap_nil, List.append_nil]
    | some path =>
      cases d with
      | addInclude path' text =>
        cases hd
        have listed := map_path_addInclude (m.past ds).session.document path (contentHash text)
        rw [ih] at listed
        rw [List.filterMap_cons, Deed.includedPath?, List.filterMap_nil, eraseDups_concat]
        simp only [List.mem_eraseDups] at listed
        exact listed
      | _ => cases hd

/-- The digests are those of what is read. -/
theorem Course.includes_read {ds : List Deed} (h : Course p m ds)
    (read : ∀ i ∈ m.session.document.includes, i.Read p) :
    ∀ i ∈ (m.past ds).session.document.includes, i.Read p := by
  induction ds generalizing m with
  | nil => exact read
  | cons d ds ih =>
    refine ih (m := m.after d) h.2 ?_
    cases hd : d.includedPath? with
    | none =>
      have same : (m.after d).session.document.includes = m.session.document.includes :=
        d.includes_change hd _
      rwa [same]
    | some path =>
      cases d with
      | addInclude path' text =>
        change ∀ i ∈ (m.session.document.addInclude path' (contentHash text)).includes, i.Read p
        unfold Document.addInclude
        split
        · exact read
        · exact List.forall_mem_append.2 ⟨read, List.forall_mem_singleton.2 ⟨text, h.1.2, rfl⟩⟩
      | _ => cases hd

end

/-! ### What stands in the files -/

/-- A file that is parsed: the first one, or one on the list. -/
def Session.HasRead (root : String) (s : Session) (file : String) : Prop :=
  file = root ∨ ∃ i ∈ s.document.includes, i.path = file

/-- The step takes no included file off the list. -/
def Lists {α : Type} (x : Parse α) : Prop :=
  Keeps (fun s s' => s.document.includes <+: s'.document.includes) x

theorem Session.HasRead.mono {root file : String} {s s' : Session} (h : s.HasRead root file)
    (longer : s.document.includes <+: s'.document.includes) : s'.HasRead root file :=
  h.imp_right fun ⟨i, mem, same⟩ => ⟨i, longer.subset mem, same⟩

section
variable {P : Mark → Prop} {root : String} {α β : Type} {Q : α → Prop} {R : β → Prop}
  {x : Parse α} {f : α → Parse β}

theorem Lists.bind (hx : Lists x) (hf : ∀ a, Lists (f a)) : Lists (x >>= f) :=
  Keeps.bind (fun _ _ _ => List.IsPrefix.trans) hx hf

/-- A step with a history takes nothing off the list: each session is between directives, or taken
to be. -/
theorem Traced.lists {p : Project} {E : Moment → Prop} {Q : List Deed → α → Prop}
    (h : Traced p Moment.Steady E x Q) : Lists x := by
  intro s
  obtain ⟨ds, does, -⟩ := h ⟨s, s.described⟩ rfl
  rw [← does.session_eq]
  exact does.course.grows.session.document.includes

variable (P root Q) in
/-- From the session on the step upholds the property, if this holds of all that stands in the files
that are on the list when the step has ended. -/
def UpholdsWithin (s : Session) (x : Parse α) : Prop :=
  (∀ m : Mark, (x.run.run s).2.HasRead root m.span.file → P m) → s.Marked P →
    (x.run.run s).2.Marked P ∧ ∀ a s', x.run.run s = (.ok a, s') → Q a

theorem Upholds.within (h : Upholds P Q x) (s : Session) : UpholdsWithin P root Q s x :=
  fun _ => h s

theorem UpholdsWithin.bind {s : Session} (hx : UpholdsWithin P root Q s x)
    (lists : ∀ a s', x.run.run s = (.ok a, s') → Lists (f a))
    (hf : ∀ a s', x.run.run s = (.ok a, s') → Q a → UpholdsWithin P root R s' (f a)) :
    UpholdsWithin P root R s (x >>= f) := by
  intro holds marked
  unfold UpholdsWithin at hx
  rw [run_bind] at holds ⊢
  rcases run : x.run.run s with ⟨e | a, s'⟩
  · rw [run] at holds hx
    exact ⟨(hx holds marked).1, fun _ _ none => nomatch none⟩
  · rw [run] at holds hx
    obtain ⟨marked', gives⟩ := hx (fun m read => holds m (read.mono (lists a s' run s'))) marked
    exact hf a s' run (gives a s' rfl) holds marked'

end

/-! ### Files -/

section
variable {P : Mark → Prop} {root : String} {p : Project} {f : Parsing} {nested : Nested}
  {b : Builder} {item : Item} {items : List Item} {stop : Position} {s : Session}

/-- Nested files uphold the property, if they are on the list. -/
def Nested.UpholdsWithin (P : Mark → Prop) (root : String) (nested : Nested) : Prop :=
  ∀ path text var outer s, s.HasRead root path →
    ServerMarkup.UpholdsWithin P root (Body.Marked P) s (nested path text var outer)

theorem lists_addInclude (path hash : String) :
    Lists (modify (·.withDocument (·.addInclude path hash)) : Parse Unit) :=
  fun s => s.document.prefix_includes_addInclude path hash

/-- What an included file does is upheld, because it is on the list when it is parsed. -/
theorem within_includeFile {ends : List Position} (hn : nested.UpholdsWithin P root)
    (lists : ∀ path text var outer, Lists (nested path text var outer)) (h : b.Marked P ends)
    {span : Span} (hp : P span.mark) (reference : String) (s : Session) :
    UpholdsWithin P root (Builder.Marked P ends) s
      (includeFile p f.paths nested b reference span) := by
  unfold includeFile
  dsimp only
  split
  · exact ((Upholds.report hp _ _).after fun _ => .pure h).within s
  split
  · exact ((Upholds.report hp _ _).after fun _ => .pure h).within s
  generalize resolveReference b.file reference = path
  have ends (body : Body) : Lists (pure (body.templates.foldl Builder.addTemplate
      (b.newVar.2.append body.children)) : Parse Builder) := fun _ => List.prefix_rfl
  have parsed (text : String) := (lists path text b.newVar.1
    ⟨b.enclosing.1, b.enclosing.2, b.inTemplate⟩).bind ends
  refine (((p.asks_readFile path).upholds nofun).within s).bind
    (fun text _ _ => (lists_addInclude _ _).bind fun _ => parsed text) fun text s _ _ => ?_
  have recorded : Upholds P (fun _ => True) (modify (·.withDocument
      (·.addInclude path (contentHash text)))) := by
    refine .modify fun s marked => ?_
    rw [Session.withDocument, Document.addInclude_eq]
    exact { marked with }
  refine (recorded.within s).bind (fun _ _ _ => parsed text) fun _ s₁ run _ => ?_
  have listed : s₁.HasRead root path := by
    cases run
    refine .inr (List.mem_map.1 ?_)
    change path ∈ (s.document.addInclude path (contentHash text)).includes.map Include.path
    rw [map_path_addInclude]
    split
    · next known => exact known
    · exact List.mem_append_right _ List.mem_cons_self
  refine (hn path text _ _ s₁ listed).bind (fun body _ _ => ends body) fun body _ _ hb => ?_
  exact (Upholds.pure ((h.newVar.append hb.children).addTemplates hb.templates)).within _

theorem lists_finish (p : Project) (sound : b.Sound) (stop : Position) :
    Lists (b.finish stop) := by
  have recorded : Records p (fun _ => True) b.pieces (b.finish stop) Body.pieces :=
    Builder.records_finish sound stop
  exact recorded.lists

/-- An item that includes no file is built the same with any way to parse nested files. -/
theorem buildItem_alone (nested' : Nested) (alone : b.script = none → item.form.reference? = none) :
    buildItem p f.paths nested b item = buildItem p f.paths nested' b item := by
  unfold buildItem
  dsimp only
  split
  · rfl
  next outside =>
  have none := alone outside
  cases hf : item.form with
  | comment e span =>
    rw [hf] at none
    have names : includeReference? e.value = .none := none
    simp only [names]
  | _ => rfl

/-- **An item upholds the property** of all that stands in the files on the list. -/
theorem within_buildItem (hn : nested.UpholdsWithin P root)
    (lists : ∀ path text var outer, Lists (nested path text var outer)) (forget : Forgets P)
    (file : b.file = f.file) (mem : item ∈ itemsOf (tokenize f.file f.text))
    (sound : item.Sound P (endsOf stop items)) (h : b.Marked P (endsOf stop (item :: items)))
    (s : Session) : UpholdsWithin P root (Builder.Marked P (endsOf stop items)) s
      (buildItem p f.paths nested b item) := by
  by_cases alone : b.script = none → item.form.reference? = none
  · rw [buildItem_alone (fun _ _ _ _ => throw (.resolver "")) alone]
    refine (upholds_buildItem forget ?_ file mem sound h).within s
    exact fun _ _ _ _ _ => .throw
  · obtain ⟨outside, names⟩ := Classical.not_imp.1 alone
    obtain ⟨reference, names⟩ := Option.ne_none_iff_exists'.1 names
    obtain ⟨e, span, comment, names⟩ := ItemForm.eq_comment names
    have form := sound.form
    rw [comment] at form
    unfold buildItem
    simp only [outside, comment, names]
    exact within_includeFile hn lists (h.mono (List.subset_cons_self _ _)) form reference s

/-- Items do so one after the other. -/
theorem within_foldlM (hn : nested.UpholdsWithin P root) (soundNested : nested.Sound)
    (records : nested.Records p f) (forget : Forgets P) (sound : b.Sound) (file : b.file = f.file)
    (mem : ∀ item ∈ items, item ∈ itemsOf (tokenize f.file f.text))
    (marks : ItemsSound P stop items) (h : b.Marked P (endsOf stop items)) (s : Session) :
    UpholdsWithin P root (fun b' => b'.Marked P [stop]) s
      (items.foldlM (buildItem p f.paths nested) b) := by
  have lists (path text var : String) (outer : Outer) : Lists (nested path text var outer) :=
    (records path text var outer).lists
  induction items generalizing b s with
  | nil => exact (Upholds.pure h).within s
  | cons item items ih =>
    obtain ⟨first, others⟩ := List.forall_mem_cons.1 mem
    have kept (b' : Builder) (s' : Session)
        (run : (buildItem p f.paths nested b item).run.run s = (.ok b', s')) :
        b'.Sound ∧ b'.file = f.file :=
      ⟨(adds_buildItem p f.paths nested soundNested sound s b' s' run).sound,
        (file_buildItem item s b' s' run).trans file⟩
    rw [List.foldlM_cons]
    refine (within_buildItem hn lists forget file first marks.1 h s).bind (fun b' s' run => ?_)
      fun b' s' run hb => ?_
    · obtain ⟨sound', file'⟩ := kept b' s' run
      exact (records_foldlM file' others sound' soundNested records).lists
    · obtain ⟨sound', file'⟩ := kept b' s' run
      exact ih sound' file' others marks.2 hb s'

end

/-- **A file upholds a property of all that stands in the files on the list**, if it is one. -/
theorem within_parseFile {P : Mark → Prop} {root : String} (forget : Forgets P) (p : Project)
    (depth : Nat) (parsing : List String) :
    (parseFile p depth parsing).UpholdsWithin P root := by
  induction depth generalizing parsing with
  | zero =>
    intro path text var outer s _
    exact (Upholds.pure (Body.marked_start throughout_nil)).within s
  | succ depth ih =>
    intro path text var outer s read holds
    have start := Builder.sound_start path var outer
    have nested := sound_parseFile p depth (path :: parsing)
    have lists := (records_parseFile p (depth + 1) parsing path text var outer).lists
    have file (m : Mark) (same : m.span.file = path) : P m := by
      refine holds m ?_
      rw [same]
      exact read.mono (lists s)
    have marks := Parsing.itemsSound ⟨path, text, parsing⟩ fun m known => file m known.1.file
    have built := within_foldlM (f := ⟨path, text, parsing⟩) (ih (path :: parsing)) nested
      (records_parseFile p depth (path :: parsing)) forget start rfl (fun _ => id) marks
      (Builder.marked_start ..) s
    have whole : UpholdsWithin P root (Body.Marked P) s
        (parseFile p (depth + 1) parsing path text var outer) := by
      refine built.bind (fun b s' run => ?_) fun b s' _ hb => ?_
      · have sound := (adds_foldlM p _ _ nested start run).sound
        exact lists_finish p sound _
      · exact (Builder.upholds_finish hb List.mem_cons_self).within s'
    exact whole holds

namespace Project

variable {p : Project} {path text : String} {registry : Registry} {body : Body} {s : Session}

variable (p path text registry) in
/-- All that a parse gives stands in the files that it has read. -/
theorem within_run :
    let read := (p.run path text registry).2.HasRead (normalPath path)
    (p.run path text registry).2.Marked (fun m => read m.span.file) ∧
      ∀ body s, p.run path text registry = (.ok body, s) →
        body.Marked fun m => read m.span.file := by
  intro read
  have forget : Forgets fun m : Mark => read m.span.file := fun _ h => h
  have whole : (parseFile p (includeDepth p (normalPath path) text) []).UpholdsWithin
      (fun m => read m.span.file) (normalPath path) :=
    within_parseFile forget p _ []
  exact whole _ _ _ _ _ (.inl rfl) (fun _ => id) (.start (.inl rfl))

/-- **The list of included files is complete.**  Its paths differ, each stands where a history
includes it first, and its digest is that of what is read for it; and whatever the parse gives
stands in the file itself or in one on the list. -/
theorem includes_complete (run : p.run path text registry = (.ok body, s)) :
    let o := s.completed body.children
    (o.document.includes.map Include.path).Nodup ∧
      ((∃ ds, p.History path text registry ds) ∧ ∀ ds, p.History path text registry ds →
        o.document.includes.map Include.path = (includedPaths ds).eraseDups) ∧
      (∀ i ∈ o.document.includes, i.Read p) ∧
      ∀ m ∈ o.marks, m.span.file = normalPath path ∨
        ∃ i ∈ o.document.includes, i.path = m.span.file := by
  obtain ⟨ds, history, -⟩ := p.exists_history path text registry
  have session {ds : List Deed} (history : p.History path text registry ds) :
      ((p.beginning path text registry).past ds).session = s := by
    rw [history.session_eq, run]
  have listed (ds : List Deed) (history : p.History path text registry ds) :
      s.document.includes.map Include.path = (includedPaths ds).eraseDups := by
    rw [← session history]
    exact Moment.includes_past (p.includes_beginning path text registry) ds
  have distinct : s.document.Distinct := by
    rw [← session history]
    exact (p.distinct_beginning path text registry).past
  have digests : ∀ i ∈ s.document.includes, i.Read p := by
    rw [← session history]
    refine (Does.course history).includes_read ?_
    rw [includes_beginning]
    exact List.forall_mem_nil _
  refine ⟨distinct.includes, ⟨⟨ds, history⟩, listed⟩, digests, ?_⟩
  obtain ⟨marked, gives⟩ := p.within_run path text registry
  rw [run] at marked gives
  exact marked.completed (gives body s rfl).children

/-- A project with a file that includes another one. -/
def branching : Project :=
  ⟨Catalog.empty.resolver, (Files.empty.insert "a.inc" "<%--#include file=sub/b.inc--%>x").insert
    "sub/b.inc" "y", .standard⟩

/-- A page that includes both files, the second one again. -/
def branchingPage : String :=
  "<%--#include file=sub/../a.inc--%><%--#include file=sub/b.inc--%>"

/-- Each of the files is on the list once, in the order in which they are first read. -/
theorem includes_complete_branching : ∃ body s,
    branching.run "page.aspx" branchingPage .empty = (.ok body, s) ∧
      s.document.includes.map Include.path = ["a.inc", "sub/b.inc"] ∧
      (∃ ds, branching.History "page.aspx" branchingPage .empty ds ∧
        ["a.inc", "sub/b.inc"] = (includedPaths ds).eraseDups) ∧
      ∀ m ∈ (s.completed body.children).marks, m.span.file = normalPath "page.aspx" ∨
        ∃ i ∈ s.document.includes, i.path = m.span.file := by
  obtain ⟨body, s, run, paths⟩ := exists_of_check
    (branching.run "page.aspx" branchingPage .empty)
    (fun _ s => s.document.includes.map Include.path == ["a.inc", "sub/b.inc"])
    (by decide +kernel)
  have paths := beq_iff_eq.1 paths
  obtain ⟨-, ⟨⟨ds, history⟩, listed⟩, -, files⟩ := includes_complete run
  exact ⟨body, s, run, paths, ⟨ds, history, paths.symm.trans (listed ds history)⟩, files⟩

end Project

end ServerMarkup
