/-
# The history of a parse

Each item has a history, and so have the items of a file one after the other; an included file does
its own between two deeds of the file around it.  So every parse has a history, also one that fails
(`Project.exists_history`).  If the parse does not fail, the tree has the pieces that have been made,
and no others.

**Whatever has been gathered stays**, through all files that are included (`Project.moments_grow`).
-/

import ServerMarkup.Proofs.History.Building
import ServerMarkup.Proofs.History.Growth
import ServerMarkup.Proofs.Tree.Growth
import ServerMarkup.Types.Catalog

namespace ServerMarkup

section
variable {met met' : StartTag → Prop} {xs ys : List Piece} {ds : List Deed}

/-- Pieces that stand aside stay there. -/
theorem Recorded.frame (h : Recorded met [] ds ys) (sub : ∀ t, met t → met' t) (xs : List Piece) :
    Recorded met' xs ds (xs ++ ys) :=
  ⟨h.pieces.append_left xs, fun t owner bound mem => sub t (h.tags t owner bound mem)⟩

end

/-- A start tag that is met in an included file is met. -/
theorem Met.of_includes {p : Project} {f g : Parsing} {t : StartTag} (step : Includes p f g)
    (h : Met p g t) : Met p f t := by
  obtain ⟨inner, chain, tag⟩ := h
  exact ⟨inner, .head step chain, tag⟩

/-- If the file includes none, a start tag that is met stands in the file itself. -/
theorem Met.of_alone {p : Project} {f : Parsing} {t : StartTag}
    (alone : ∀ item ∈ itemsOf (tokenize f.file f.text), item.form.reference? = none)
    (h : Met p f t) : ∃ item ∈ itemsOf (tokenize f.file f.text), item.form = .startTag t := by
  obtain ⟨g, chain, tag⟩ := h
  obtain rfl | ⟨g', step, -⟩ := chain.cases_head
  · exact tag
  · cases step with
    | comment mem names =>
      rw [alone _ mem] at names
      cases names

section
variable {p : Project} {f : Parsing} {nested : Nested} {b : Builder} {item : Item}

/-- Nested files have histories, with the start tags that are met in them. -/
def Nested.Records (p : Project) (f : Parsing) (nested : Nested) : Prop :=
  ∀ path text var outer, ServerMarkup.Records p (Met p ⟨path, text, f.paths⟩) []
    (nested path text var outer) Body.pieces

/-- An included file is recorded, does what is its own, and brings its pieces. -/
theorem records_includeFile {reference : String} {span : Span} (file : b.file = f.file)
    (mem : item ∈ itemsOf (tokenize f.file f.text)) (names : item.form.reference? = some reference)
    (sound : nested.Sound) (hn : nested.Records p f) :
    Records p (Met p f) b.pieces (includeFile p f.paths nested b reference span)
      Builder.pieces := by
  unfold includeFile
  dsimp only
  split
  · exact .after_writings (p.traced_report _ _ _) fun _ => .pure (.refl _)
  next fresh =>
  split
  · exact .after_writings (p.traced_report _ _ _) fun _ => .pure (.refl _)
  have reads := (p.asks_readFile (resolveReference b.file reference)).traced_steady.and_gives
    (gives_readFile p _)
  refine Traced.bind reads fun ds text ⟨written, readable⟩ => ?_
  refine Traced.mono ?_ fun _ _ => (Recorded.of_writings written (.refl _)).trans
  rw [file] at fresh readable ⊢
  have noted : Traced p Moment.Steady Moment.Steady (modify (·.withDocument
      (·.addInclude (resolveReference f.file reference) (contentHash text))))
      fun ds _ => Writings ds :=
    p.traced_note (.addInclude _ text) (fun _ steady => ⟨steady, readable⟩) rfl (fun _ => rfl)
      (fun _ => rfl) rfl
  refine Records.after_writings noted fun _ => ?_
  have step : Includes p f ⟨resolveReference f.file reference, text, f.paths⟩ :=
    .comment mem names rfl (Bool.eq_false_iff.2 fresh) readable
  have parsed := (hn (resolveReference f.file reference) text b.newVar.1
    ⟨b.enclosing.1, b.enclosing.2, b.inTemplate⟩).and_gives fun s body s' run =>
      (sound _ _ _ _ s body s' run).2
  refine Traced.bind parsed fun ds body ⟨recorded, hosted⟩ => Traced.pure ?_
  rw [List.append_nil]
  have inner := recorded.frame (fun t => Met.of_includes step) b.pieces
  refine ⟨List.Perm.trans ?_ inner.pieces, inner.tags⟩
  have around : body.templates ≠ [] → (b.newVar.2.append body.children).enclosing.1 ≠ none := by
    rw [Builder.append, Builder.enclosing_withBody, Builder.newVar, Builder.enclosing_withBody]
    exact fun filled none => filled (hosted none)
  refine (Builder.pieces_addTemplates around).trans ?_
  rw [Body.pieces, ← List.append_assoc]
  exact ((b.newVar.2.pieces_append _).trans (b.pieces_newVar.append_right _)).append_right _

/-- **An item has a history**, and its pieces are kept. -/
theorem records_buildItem (file : b.file = f.file) (mem : item ∈ itemsOf (tokenize f.file f.text))
    (sound : b.Sound) (soundNested : nested.Sound) (hn : nested.Records p f) :
    Records p (Met p f) b.pieces (buildItem p f.paths nested b item) Builder.pieces := by
  unfold buildItem
  dsimp only
  split
  · exact Builder.records_scriptItem _ item _
  cases hf : item.form with
  | text e => exact .pure (b.pieces_addLeaf _ _)
  | code kind e span => exact .pure (b.pieces_addLeaf _ _)
  | comment e span =>
    dsimp only
    split
    · next reference names =>
      exact records_includeFile file mem (by rw [hf]; exact names) soundNested hn
    · exact .pure (.refl _)
  | directive kind as span =>
    exact .after_writings (p.traced_direct _ kind as span) fun _ => .pure (b.pieces_addLeaf _ _)
  | startTag t => exact Builder.records_openTag ⟨f, .refl, item, mem, hf⟩
  | endTag tag => exact Builder.records_closeTag sound tag _
  | stray => exact .pure (.refl _)

theorem records_foldlM {items : List Item} (file : b.file = f.file)
    (mem : ∀ item ∈ items, item ∈ itemsOf (tokenize f.file f.text)) (sound : b.Sound)
    (soundNested : nested.Sound) (hn : nested.Records p f) :
    Records p (Met p f) b.pieces (items.foldlM (buildItem p f.paths nested) b)
      Builder.pieces := by
  induction items generalizing b with
  | nil => exact .pure (.refl _)
  | cons item items ih =>
    obtain ⟨first, others⟩ := List.forall_mem_cons.1 mem
    have built := ((records_buildItem file first sound soundNested hn).and_gives
      (file_buildItem item)).and_gives fun s b' s' run =>
        (adds_buildItem p f.paths nested soundNested sound s b' s' run).sound
    rw [List.foldlM_cons]
    refine Traced.bind built fun ds b' ⟨⟨recorded, kept⟩, sound'⟩ => ?_
    exact (ih (kept.trans file) others sound').mono fun _ _ => recorded.trans

end

/-- **The parse of a file has a history**, through all files that it includes. -/
theorem records_parseFile (p : Project) (depth : Nat) (parsing : List String) (path text : String)
    (var : String) (outer : Outer) : Records p (Met p ⟨path, text, parsing⟩) []
      (parseFile p depth parsing path text var outer) Body.pieces := by
  induction depth generalizing parsing path text var outer with
  | zero => exact .pure (.refl _)
  | succ depth ih =>
    have start := Builder.sound_start path var outer
    have nested := sound_parseFile p depth (path :: parsing)
    have built := (records_foldlM (f := ⟨path, text, parsing⟩) rfl (fun _ => id) start nested
      (ih (path :: parsing))).and_gives fun s b s' run =>
        (adds_foldlM p _ _ nested start run).sound
    refine Traced.bind built fun ds b ⟨recorded, sound⟩ => ?_
    exact (Builder.records_finish sound _).mono fun _ _ => recorded.trans

namespace Project

/-- **Every parse has a history.**  If it does not fail, it ends between directives, the tree has
the pieces that the history has made, and no template is left beside the tree. -/
theorem exists_history (p : Project) (path text : String) (registry : Registry) :
    ∃ ds, p.History path text registry ds ∧ ∀ body s, p.run path text registry = (.ok body, s) →
      ((p.beginning path text registry).past ds).Steady ∧
        Recorded (Met p ⟨normalPath path, text, []⟩) [] ds (piecesOf body.children) := by
  obtain ⟨ds, does, ends⟩ := records_parseFile p (includeDepth p (normalPath path) text) []
    (normalPath path) text "ctrl" .none (p.beginning path text registry) rfl
  refine ⟨ds, does, fun body s run => ?_⟩
  obtain ⟨steady, recorded⟩ := ends body s run
  have bare := (sound_parseFile p _ _ _ _ _ _ _ _ _ run).2 rfl
  rw [Body.pieces, bare, templatePieces_nil, List.append_nil] at recorded
  exact ⟨steady, recorded⟩

/-- **What has been gathered stays.**  Of two moments of a parse the later one, be it in a file
included at any depth, has all that the earlier one has, with the lists at the beginning of its
own; behind a main directive nothing that it has said is changed; and at each moment the imports
differ, and the paths of the included files. -/
theorem moments_grow (p : Project) (path text : String) (registry : Registry) :
    (∃ ds, p.History path text registry ds ∧ ∀ body s, p.run path text registry = (.ok body, s) →
      ((p.beginning path text registry).past ds).Steady) ∧
    ∀ ds, p.History path text registry ds →
      ((p.beginning path text registry).past ds).session = (p.run path text registry).2 ∧
        (∀ es fs, es <+: fs → fs <+: ds → ((p.beginning path text registry).past es).Grows
          ((p.beginning path text registry).past fs)) ∧
        ∀ es, es <+: ds →
          ((p.beginning path text registry).past es).session.document.Distinct := by
  obtain ⟨ds, history, ends⟩ := p.exists_history path text registry
  refine ⟨⟨ds, history, fun body s run => (ends body s run).1⟩,
    fun ds history => ⟨history.session_eq, ?_, ?_⟩⟩
  · exact fun es fs earlier later => (Does.course history).grows_between earlier later
  · exact fun es _ => (p.distinct_beginning path text registry).past

/-- A project with a file that has a main directive. -/
def layered : Project :=
  ⟨Catalog.empty.resolver, Files.empty.insert "b.inc" "<%@ Control Language=VB %>", .standard⟩

/-- A page that includes the file before its own directive. -/
def layeredPage : String :=
  "<%--#include file=b.inc--%><%@ Page Language=C# %>"

/-- The language is that of the included file from the end of its directive on. -/
theorem moments_grow_layered : ∃ ds, layered.History "page.aspx" layeredPage .empty ds ∧
    ((layered.beginning "page.aspx" layeredPage .empty).past ds).settled = true ∧
      ∀ es, es <+: ds → ((layered.beginning "page.aspx" layeredPage .empty).past es).settled →
        ((layered.beginning "page.aspx" layeredPage .empty).past es).session.document.language =
          some "VB" := by
  obtain ⟨body, s, run, check⟩ := exists_of_check (layered.run "page.aspx" layeredPage .empty)
    (fun _ s => s.described && s.document.language == some "VB") (by decide +kernel)
  simp only [Bool.and_eq_true, beq_iff_eq] at check
  obtain ⟨⟨ds, history, ends⟩, stays⟩ := layered.moments_grow "page.aspx" layeredPage .empty
  obtain ⟨session, grows, -⟩ := stays ds history
  rw [run] at session
  have steady := ends body s run
  rw [Moment.Steady, session, check.1] at steady
  refine ⟨ds, history, steady.symm, fun es earlier settled => ?_⟩
  have same := ((grows es ds earlier List.prefix_rfl).settled settled).2.language
  rw [session, check.2] at same
  exact same.symm

end Project

end ServerMarkup
