/-
# The history of a tree

The builder's steps have a history too, and all pieces that are made on the way are kept
(`Recorded`): the attributes of a start tag make a typed node, which is open from then on or joins
the tree, and a closed template joins the typed node around it.  So an item leaves as many pieces
more as its deeds have made (`records_openTag`, `records_closeTag`).
-/

import ServerMarkup.Proofs.Content.Fed
import ServerMarkup.Proofs.History.Pieces
import ServerMarkup.Proofs.History.Traced

namespace ServerMarkup

/-- The deeds have made the pieces that are there afterwards and were not before; the start tags
that have been bound are among those that are met. -/
structure Recorded (met : StartTag → Prop) (before : List Piece) (ds : List Deed)
    (after : List Piece) : Prop where
  pieces : after.Perm (before ++ deedPieces ds)
  tags : ∀ t owner bound, Deed.bind t owner bound ∈ ds → met t

/-- Between directives the step has a history, and what it returns has the pieces that were there
before and those of the history. -/
def Records (p : Project) (met : StartTag → Prop) (before : List Piece) {α : Type} (x : Parse α)
    (pieces : α → List Piece) : Prop :=
  Traced p Moment.Steady Moment.Steady x fun ds a => Recorded met before ds (pieces a)

section
variable {met : StartTag → Prop} {before xs ys zs : List Piece} {ds es : List Deed}

theorem deedPieces_append (ds es : List Deed) :
    deedPieces (ds ++ es) = deedPieces ds ++ deedPieces es :=
  List.flatMap_append

/-- What is written makes no pieces. -/
theorem Writings.deedPieces_eq (h : Writings ds) : deedPieces ds = [] := by
  refine List.flatMap_eq_nil_iff.2 fun d mem => ?_
  have writing := h d mem
  cases d with
  | bind | addTemplate => cases writing
  | _ => rfl

namespace Recorded

theorem of_writings (h : Writings ds) (same : ys.Perm xs) : Recorded met xs ds ys := by
  refine ⟨?_, fun t owner bound mem => Bool.noConfusion (h _ mem)⟩
  rw [h.deedPieces_eq, List.append_nil]
  exact same

theorem trans (h : Recorded met xs ds ys) (k : Recorded met ys es zs) :
    Recorded met xs (ds ++ es) zs := by
  refine ⟨?_, fun t owner bound mem => ?_⟩
  · rw [deedPieces_append, ← List.append_assoc]
    exact k.pieces.trans (h.pieces.append_right _)
  · exact (List.mem_append.1 mem).elim (h.tags t owner bound) (k.tags t owner bound)

/-- A start tag that is met makes a typed node, with the collections below it. -/
theorem bind {t : StartTag} {owner : Owner} {bound : Bound} (tag : met t) (written : Writings ds)
    (same : ys.Perm (xs ++ (Deed.bind t owner bound).pieces)) :
    Recorded met xs (ds ++ [.bind t owner bound]) ys := by
  refine ⟨?_, fun t' owner' bound' mem => ?_⟩
  · rw [deedPieces_append, written.deedPieces_eq, List.nil_append]
    exact same.trans (by rw [deedPieces, List.flatMap_singleton])
  · obtain early | last := List.mem_append.1 mem
    · exact Bool.noConfusion (written _ early)
    · cases List.mem_singleton.1 last
      exact tag

end Recorded

namespace Records

variable {p : Project} {α β : Type} {x : Parse α} {f : α → Parse β} {view : α → List Piece}
  {view' : β → List Piece}

theorem pure {a : α} (same : (view a).Perm xs) : Records p met xs (Pure.pure a) view :=
  Traced.pure (.of_writings (List.forall_mem_nil _) same)

/-- The step goes on from other pieces after one that only writes. -/
theorem after_writings
    (hx : Traced p Moment.Steady Moment.Steady x fun ds _ => Writings ds)
    (hf : ∀ a, Records p met xs (f a) view') : Records p met xs (x >>= f) view' :=
  Traced.bind hx fun _ a written => (hf a).mono fun _ _ recorded =>
    (Recorded.of_writings written (.refl xs)).trans recorded

/-- The pieces that were there before may be listed in another order. -/
theorem of_perm (same : ys.Perm xs) (h : Records p met ys x view) : Records p met xs x view :=
  Traced.mono h fun _ _ recorded => ⟨recorded.pieces.trans (same.append_right _), recorded.tags⟩

end Records

end

namespace Builder

section
variable {p : Project} {met : StartTag → Prop} {b : Builder} {f : Frame}

/-! ### Frames -/

/-- A closed frame passes its pieces on; a template is one from then on. -/
theorem records_attach (kept : f.opened.isTyped = false → f.body.templates = [])
    (hosted : f.opened.isTemplate = true → typeAround b.outer b.stack ≠ none) :
    Records p met (b.pieces ++ f.pieces) (b.attach f) pieces := by
  cases ho : f.opened with
  | element h =>
    have none := kept (by rw [ho]; rfl)
    unfold attach
    simp only [ho]
    refine .pure ((b.pieces_append _).trans ?_)
    simp [Frame.pieces, ho, Opened.pieces, Body.pieces, none]
  | control h =>
    unfold attach
    simp only [ho]
    refine .pure ((b.pieces_append _).trans ?_)
    simp only [Frame.pieces, ho, Opened.pieces, Body.pieces, piecesOf_control,
      List.singleton_append]
    exact (List.perm_append_comm.cons _).append_left _
  | collection h =>
    unfold attach
    simp only [ho]
    refine .pure ((b.pieces_append _).trans ?_)
    simp only [Frame.pieces, ho, Opened.pieces, Body.pieces, piecesOf_collection,
      List.singleton_append]
    exact (List.perm_append_comm.cons _).append_left _
  | template h =>
    have none := kept (by rw [ho]; rfl)
    have around : b.enclosing.1 ≠ Option.none := by
      rw [enclosing_fst]
      exact hosted (by rw [ho]; rfl)
    refine fun m steady => ⟨_, .template ho steady, fun b' s run => ⟨steady.after rfl rfl, ?_, ?_⟩⟩
    · unfold attach at run
      rw [ho] at run
      cases run
      refine (pieces_addTemplate around _).trans ?_
      simp only [deedPieces, List.flatMap_singleton, Deed.pieces, Frame.pieces, ho, Opened.pieces,
        Body.pieces, none, templatePieces_nil, List.append_nil, List.nil_append, Template.children,
        List.append_assoc]
      exact (List.perm_append_singleton _ _).symm.append_left _
    · simp

/-- An opened frame is there with its pieces. -/
theorem records_enter (hasContent : Bool)
    (kept : f.opened.isTyped = false → f.body.templates = [])
    (hosted : f.opened.isTemplate = true → typeAround b.outer b.stack ≠ none) :
    Records p met (b.pieces ++ f.pieces) (b.enter hasContent f) pieces := by
  unfold enter
  split
  · refine .pure ?_
    simp only [pieces, List.flatMap_cons, List.append_assoc]
    exact List.perm_append_comm.append_left _
  · exact records_attach kept hosted

theorem records_closeFrame (sound : b.Sound) (stop : Position) :
    Records p met b.pieces (b.closeFrame stop) pieces := by
  have frames := sound.frames
  unfold closeFrame
  split
  · exact .pure (.refl _)
  · next top rest hs =>
    rw [hs] at frames
    cases frames with
    | cons below kept hosted =>
      refine Records.of_perm ?_ (records_attach (by simpa using kept) (by simpa using hosted))
      simp only [pieces, hs, Frame.pieces, Opened.pieces_endingAt, List.flatMap_cons,
        List.append_assoc]
      refine List.Perm.append_left _ ?_
      rw [← List.append_assoc top.opened.pieces]
      exact List.perm_append_comm

theorem records_closeFrames (stop : Position) (frames : List Frame) (sound : b.Sound) :
    Records p met b.pieces (closeFrames stop frames b) pieces := by
  induction frames generalizing b with
  | nil => exact .pure (.refl _)
  | cons f rest ih =>
    have closed : Records p met b.pieces (b.closeFrame stop) pieces :=
      records_closeFrame sound stop
    have known := closed.and_gives fun s b' s' run =>
      (b.adds_closeFrame stop sound s b' s' run).sound
    exact Traced.bind known fun _ b' known => (ih known.2).mono fun _ _ => known.1.trans

/-! ### Start tags -/

variable {t : StartTag}

/-- A tag that makes no piece takes a variable and is opened. -/
theorem records_enter_bare (bare : f.pieces = []) (typed : f.body.templates = [])
    (hosted : f.opened.isTemplate = true → typeAround b.outer b.stack ≠ none) :
    Records p met b.pieces (b.newVar.2.enter (hasContent t) f) pieces := by
  refine Records.of_perm ?_ (records_enter (hasContent t) (fun _ => typed) fun template => ?_)
  · rw [bare, List.append_nil]
    exact b.pieces_newVar
  · rw [newVar, typeAround_withBody]
    exact hosted template

theorem records_openTemplate (property : String)
    (around : typeAround b.outer b.stack ≠ none) :
    Records p met b.pieces (b.openTemplate t property) pieces :=
  records_enter_bare rfl rfl fun _ => around

theorem records_openElement (t : StartTag) : Records p met b.pieces (b.openElement t) pieces :=
  records_enter_bare rfl rfl fun h => Bool.noConfusion h

/-- A typed node that is opened has been made by binding its attributes. -/
theorem records_bind {owner : Owner} {as : List Attribute} {opened : Bound → Opened}
    (tag : met t) (left : Leaves t.attributes as)
    (typed : ∀ bound, (opened bound).isTyped = true) (made : ∀ bound, (opened bound).pieces =
      [.typed t.span.file t.span.start owner.var owner.type bound.bindings]) :
    Records p met b.pieces (bind p owner as >>= fun bound => b.newVar.2.enter (hasContent t)
      ⟨opened bound, t.tag, .start owner.var bound.children⟩) pieces := by
  refine Traced.bind (traced_bind p owner left) fun ds bound ⟨es, written, same⟩ => ?_
  have typed := typed bound
  have plain : (opened bound).isTemplate = false := by
    cases ho : opened bound <;> simp_all [Opened.isTyped, Opened.isTemplate]
  have enter : Records p met (b.newVar.2.pieces ++
      Frame.pieces ⟨opened bound, t.tag, .start owner.var bound.children⟩)
      (b.newVar.2.enter (hasContent t) ⟨opened bound, t.tag, .start owner.var bound.children⟩)
      pieces :=
    records_enter (hasContent t) (by simp [typed]) (by simp [plain])
  subst same
  refine enter.mono fun fs b' recorded => Recorded.trans ?_ recorded
  refine .bind tag written ?_
  simp only [Frame.pieces, made, Body.pieces, Body.start, templatePieces_nil, List.append_nil,
    Deed.pieces, List.singleton_append]
  exact b.pieces_newVar.append_right _

theorem records_openCollection (m : Member) (tag : met t) :
    Records p met b.pieces (b.openCollection p t m) pieces :=
  records_bind tag (.inl rfl) (fun _ => rfl) fun _ => rfl

theorem records_openControl (tag : met t) :
    Records p met b.pieces (b.openControl p t) pieces := by
  have typed := (p.asks_controlType t.tag t.attributes).traced_steady.and_gives
    (leaves_controlType p t.tag t.attributes)
  refine Traced.bind typed fun ds x known => ?_
  obtain ⟨type, as⟩ := x
  refine Traced.mono ?_ fun _ _ => (Recorded.of_writings known.1 (.refl _)).trans
  exact records_bind tag known.2 (fun _ => rfl) fun _ => rfl

theorem traced_addScript (p : Project) (script : OpenScript) (stop : Position) :
    Traced p Moment.Steady Moment.Steady (addScript script stop) fun ds _ => Writings ds :=
  p.traced_note (.addScript _) (fun _ h => h) rfl (fun _ => rfl) (fun _ => rfl) rfl

theorem records_openScript (t : StartTag) : Records p met b.pieces (b.openScript t) pieces := by
  unfold openScript
  dsimp only
  split
  · exact .pure b.pieces_newVar
  · exact .after_writings (traced_addScript p _ _) fun _ => .pure b.pieces_newVar

/-- **A start tag is opened by deeds that make its pieces.** -/
theorem records_openTag (tag : met t) : Records p met b.pieces (b.openTag p t) pieces := by
  unfold openTag
  refine .after_writings (p.asks_askAll _).traced_steady fun _ => ?_
  unfold openAs
  dsimp only
  split
  · next m hm =>
    refine records_openTemplate _ ?_
    rw [← b.enclosing_fst]
    intro none
    split at hm <;> simp [none] at hm
  · exact records_openCollection _ tag
  · split
    · exact records_openScript t
    split
    · exact records_openControl tag
    · exact records_openElement t

/-! ### Closing tags and scripts -/

theorem records_closeTag (sound : b.Sound) (tag : TagName) (stop : Position) :
    Records p met b.pieces (b.closeTag tag stop) pieces := by
  unfold closeTag
  split
  · exact .pure (.refl _)
  · dsimp only
    split
    · exact records_closeFrame sound stop
    · exact .after_writings (p.traced_report _ _ _) fun _ => records_closeFrame sound stop

theorem records_scriptItem (script : OpenScript) (item : Item) (stop : Position) :
    Records p met b.pieces (b.scriptItem script item stop) pieces := by
  unfold scriptItem
  split
  · exact .after_writings (traced_addScript p _ _) fun _ => .pure (.refl _)
  · exact .pure (.refl _)

/-- At the end of a file all pieces are in the tree of the file. -/
theorem records_finish (sound : b.Sound) (stop : Position) :
    Records p met b.pieces (b.finish stop) Body.pieces := by
  have closes : Records p met b.pieces
      (closeFrames stop b.stack b >>= fun b' => Pure.pure b'.root) Body.pieces := by
    have closed : Records p met b.pieces (closeFrames stop b.stack b) pieces :=
      records_closeFrames stop b.stack sound
    have known := closed.and_gives (b.gives_closeFrames stop rfl)
    refine Traced.bind known fun ds b' ⟨recorded, empty, _⟩ => Traced.pure ?_
    rw [List.append_nil]
    have pieces : b'.pieces = b'.root.pieces := by
      rw [Builder.pieces, empty, List.flatMap_nil, List.append_nil]
    rwa [← pieces]
  unfold finish
  split
  · exact .after_writings (traced_addScript p _ _) fun _ => closes
  · exact closes

end

end Builder

end ServerMarkup
