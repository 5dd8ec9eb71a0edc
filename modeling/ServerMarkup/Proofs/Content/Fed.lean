/-
# What the items of a page feed to the builder

An item adds to what the builder holds whatever `Builder.takes` says: outside scripts a text, a
code block or a directive is a leaf of its own, and in a script every token of text and of code is a
part.  At the end of a file all that has been held is in the tree or in the scripts
(`brings_finish`), and in a file that is not included nothing is left in templates at the top.

An included file brings what it holds itself (`sound_parseFile`); but then it is on record, so a parse
that ends without included files has included none.
-/

import ServerMarkup.Proofs.Content.Held

namespace ServerMarkup

/-- What a token adds to an open script. -/
def Token.scriptLeaf? (t : Token) : Option LeafContent :=
  (Builder.scriptContent? t).map Prod.snd

/-- What an item outside scripts adds to the tree. -/
def ItemForm.leaves : ItemForm → List LeafContent
  | .text e => [.text e]
  | .code kind e _ => [.code kind e]
  | .directive kind attributes _ => [.directive kind (recordOf attributes)]
  | _ => []

namespace Builder

/-- What the builder takes of an item. -/
def takes (b : Builder) (item : Item) : List LeafContent :=
  match b.script with
  | some _ => if item.form.isEndTag then [] else item.tokens.filterMap Token.scriptLeaf?
  | none => item.form.leaves

theorem contents_addTokens (script : OpenScript) (ts : List Token) :
    (ts.foldl addToScript script).contents =
      script.contents ++ ts.filterMap Token.scriptLeaf? := by
  induction ts generalizing script with
  | nil => simp
  | cons t ts ih =>
    rw [List.foldl_cons, ih, List.filterMap_cons, Token.scriptLeaf?]
    unfold addToScript
    cases scriptContent? t <;> simp [OpenScript.contents]

theorem adds_scriptItem {b : Builder} {script : OpenScript} (h : b.script = some script)
    (item : Item) (stop : Position) : Adds b (b.takes item) (b.scriptItem script item stop) := by
  have takes : b.takes item =
      if item.form.isEndTag then [] else item.tokens.filterMap Token.scriptLeaf? := by
    rw [takes, h]
  unfold scriptItem
  split
  · next tag hf =>
    rw [takes, hf]
    refine b.adds_addScript script stop rfl (fun sound => ⟨sound.frames, sound.root⟩) ?_
    simp [contents, h, ItemForm.isEndTag]
  · next other =>
    have notEnd : item.form.isEndTag = false := by
      cases hf : item.form with
      | endTag tag => exact absurd hf (other tag)
      | _ => rfl
    rw [takes, notEnd, if_neg Bool.false_ne_true]
    refine .pure rfl (fun sound => ⟨sound.frames, sound.root⟩) ?_
    simp [contents, h, contents_addTokens]

end Builder

/-! ### Included files -/

/-- What is known of the parse of an included file: it leaves included files and finished scripts on
record, and it has templates at the top only if it stands in a typed node. -/
def Nested.Sound (nested : Nested) : Prop :=
  ∀ path text var outer s body s', (nested path text var outer).run.run s = (.ok body, s') →
    ((s'.document.includes = [] → s.document.includes = []) ∧
      ∃ brought, (body.contents ++ s'.document.scriptContents).Perm
        (s.document.scriptContents ++ brought)) ∧
      (outer.type = none → body.templates = [])

theorem includes_addInclude (d : Document) (path hash : String) :
    (d.addInclude path hash).includes ≠ [] := by
  unfold Document.addInclude
  split
  · next h =>
    intro none
    simp [Document.includesPath, none] at h
  · simp

theorem scriptContents_addInclude (d : Document) (path hash : String) :
    (d.addInclude path hash).scriptContents = d.scriptContents := by
  unfold Document.addInclude
  split <;> rfl

namespace Builder

theorem contents_addTemplates (b : Builder) (ts : List Template) :
    (ts.foldl addTemplate b).contents.Perm (b.contents ++ templateContents ts) := by
  induction ts generalizing b with
  | nil => rw [List.foldl_nil, templateContents_nil, List.append_nil]
  | cons t ts ih =>
    rw [templateContents_cons, ← List.append_assoc]
    exact (ih _).trans ((b.contents_addTemplate t).append_right _)

theorem Sound.addTemplates {b : Builder} {ts : List Template} (h : b.Sound)
    (around : ts ≠ [] → typeAround b.outer b.stack ≠ none) :
    (ts.foldl Builder.addTemplate b).Sound := by
  induction ts generalizing b with
  | nil => exact h
  | cons t ts ih =>
    have here := around (List.cons_ne_nil t ts)
    refine ih (h.addTemplate here t) fun _ => ?_
    rwa [b.typeAround_addTemplate]

theorem outer_addTemplates (b : Builder) (ts : List Template) :
    (ts.foldl addTemplate b).outer = b.outer :=
  view_addTemplates outer_withBody b ts

end Builder

section
variable (p : Project) (parsing : List String) (nested : Nested) {b : Builder} {item : Item}

/-- An included file is on record and brings what it holds; a file that is reported instead adds
nothing. -/
theorem adds_includeFile (hn : nested.Sound) (reference : String) (span : Span) :
    Adds b [] (includeFile p parsing nested b reference span) := by
  have reported (code : DiagnosticCode) (args : List String) :
      Adds b [] (report code span args >>= fun _ => pure b) :=
    .after_aside (.modify fun _ _ => rfl) fun _ => .pure rfl id (by rw [List.append_nil])
  unfold includeFile
  dsimp only
  split
  · exact reported _ _
  split
  · exact reported _ _
  · refine .after_aside ((p.asks_readFile _).mild nofun).aside fun text => ?_
    intro sound s b' s' hr
    have recorded := includes_addInclude s.document (resolveReference b.file reference)
      (contentHash text)
    rw [run_bind] at hr
    change (nested _ text b.newVar.1 _ >>= _).run.run (s.withDocument (·.addInclude _ _)) = _ at hr
    rw [run_bind] at hr
    split at hr
    · next body s₁ hb =>
      obtain ⟨⟨kept, brought, held⟩, hosted⟩ := hn _ _ _ _ _ _ _ hb
      cases hr
      have around : body.templates ≠ [] →
          typeAround (b.newVar.2.append body.children).outer
            (b.newVar.2.append body.children).stack ≠ none := by
        rw [Builder.append, Builder.typeAround_withBody, Builder.newVar,
          Builder.typeAround_withBody, ← b.enclosing_fst]
        exact fun filled none => filled (hosted none)
      refine ⟨?_, (sound.newVar.append _).addTemplates around, brought, ?_, fun none => ?_⟩
      · rw [Builder.outer_addTemplates, Builder.append, Builder.outer_withBody, b.outer_newVar]
      · have contents := Builder.contents_addTemplates (b.newVar.2.append body.children)
          body.templates
        have children := b.newVar.2.contents_append body.children
        have var := b.contents_newVar
        rw [Session.withDocument, scriptContents_addInclude] at held
        rw [List.perm_iff_count] at contents children var held ⊢
        intro c
        have h₁ := contents c
        have h₂ := children c
        have h₃ := var c
        have h₄ := held c
        simp only [Builder.held, Body.contents, List.count_append, List.count_nil]
          at h₁ h₂ h₃ h₄ ⊢
        omega
      · exact absurd (kept none) recorded
    · cases hr

/-- **An item adds what the builder takes of it.** -/
theorem adds_buildItem (hn : nested.Sound) :
    Adds b (b.takes item) (buildItem p parsing nested b item) := by
  unfold buildItem
  dsimp only
  split
  · next script hs => exact Builder.adds_scriptItem hs item _
  · next hs =>
    have takes : b.takes item = item.form.leaves := by rw [Builder.takes, hs]
    have leaf (span : Span) (content : LeafContent) (x : Parse Builder)
        (hx : Adds (b.addLeaf span content) [] x) : Adds b [content] x :=
      Adds.onward (b.outer_addLeaf _ _) (·.addLeaf _ _) (b.contents_addLeaf span content) hx
    have same (b : Builder) : Adds b [] (pure b) := .pure rfl id (by rw [List.append_nil])
    rw [takes]
    cases item.form with
    | text e => exact leaf _ _ _ (same _)
    | code kind e span => exact leaf _ _ _ (same _)
    | comment e span =>
      dsimp only
      split
      · exact adds_includeFile p parsing nested hn _ _
      · exact same b
    | directive kind as span =>
      exact leaf _ _ _ (.after_aside (p.mild_direct _ _ _ _).aside fun _ => same _)
    | startTag t => exact b.adds_openTag p t hs
    | endTag tag => exact b.adds_closeTag tag _
    | stray => exact same b

/-! ### Runs -/

/-- What the builders of a run take of its items. -/
def fed : Builder → Session → List Item → List LeafContent
  | _, _, [] => []
  | b, s, item :: items =>
    b.takes item ++
      match (buildItem p parsing nested b item).run.run s with
      | (.ok b', s') => fed b' s' items
      | (.error _, _) => []

/-- **A run adds what its builders take.** -/
theorem adds_foldlM (hn : nested.Sound) {items : List Item} {s s' : Session} {b' : Builder}
    (sound : b.Sound)
    (run : (items.foldlM (buildItem p parsing nested) b).run.run s = (.ok b', s')) :
    Grown b s (fed p parsing nested b s items) b' s' := by
  induction items generalizing b s with
  | nil =>
    cases run
    exact .alone rfl sound rfl (by rw [fed, List.append_nil])
  | cons item items ih =>
    rw [List.foldlM_cons, run_bind] at run
    rw [fed]
    rcases hr : (buildItem p parsing nested b item).run.run s with ⟨_ | b₁, s₁⟩
    · rw [hr] at run
      cases run
    · rw [hr] at run
      have first := adds_buildItem p parsing nested hn sound s b₁ s₁ hr
      exact first.trans (ih first.sound run)

end

/-! ### The end of a file -/

namespace Builder

variable (b : Builder)

theorem script_withBody (f : Body → Body) : (b.withBody f).script = b.script := by
  unfold withBody
  split <;> rfl

theorem script_closeFrame (stop : Position) : Gives (b.closeFrame stop) (·.script = b.script) := by
  unfold closeFrame
  split
  · exact .pure rfl
  · exact view_attach script_withBody _ _

/-- The end of the file closes all frames, and leaves the script to the session. -/
theorem gives_closeFrames (stop : Position) {frames : List Frame}
    (h : b.stack.length = frames.length) :
    Gives (closeFrames stop frames b) fun b' => b'.stack = [] ∧ b'.script = b.script := by
  induction frames generalizing b with
  | nil => exact .pure ⟨List.length_eq_zero_iff.1 h, rfl⟩
  | cons f rest ih =>
    intro s b' s' hr
    rw [closeFrames, run_bind] at hr
    rcases hr₁ : (b.closeFrame stop).run.run s with ⟨_ | b₁, s₁⟩
    · rw [hr₁] at hr
      cases hr
    · rw [hr₁] at hr
      have script := b.script_closeFrame stop s b₁ s₁ hr₁
      have popped := congrArg (·.frames.length) (b.gives_closeFrame stop s b₁ s₁ hr₁)
      simp only [outline, Outline.pop, List.length_tail, List.length_map, h, List.length_cons,
        Nat.add_sub_cancel] at popped
      obtain ⟨empty, same⟩ := ih b₁ popped s₁ b' s' hr
      exact ⟨empty, same.trans script⟩

/-- **At the end of a file the tree and the scripts hold all that has been held.** -/
theorem brings_finish {stop : Position} {s s' : Session} {body : Body} (sound : b.Sound)
    (run : (b.finish stop).run.run s = (.ok body, s')) :
    (b.outer.type = none → body.templates = []) ∧
      ∃ brought, (body.contents ++ s'.document.scriptContents).Perm (b.held s ++ brought) ∧
        (s'.document.includes = [] → s.document.includes = [] ∧ brought = []) := by
  have closed (s₁ : Session) (includes : s₁.document.includes = s.document.includes)
      (held : (b.held s₁).Perm (b.held s ++ (b.script.map OpenScript.contents).getD []))
      (run : (closeFrames stop b.stack b >>= fun b' => pure b'.root).run.run s₁ = (.ok body, s')) :
      (b.outer.type = none → body.templates = []) ∧
        ∃ brought, (body.contents ++ s'.document.scriptContents).Perm (b.held s ++ brought) ∧
          (s'.document.includes = [] → s.document.includes = [] ∧ brought = []) := by
    rw [run_bind] at run
    rcases hr : (closeFrames stop b.stack b).run.run s₁ with ⟨_ | b', s₂⟩
    · rw [hr] at run
      cases run
    · rw [hr] at run
      cases run
      obtain ⟨empty, script⟩ := b.gives_closeFrames stop rfl s₁ b' s' hr
      have grown := b.adds_closeFrames stop b.stack sound s₁ b' s' hr
      refine ⟨fun none => grown.sound.root (by rw [grown.outer, none]), ?_⟩
      obtain ⟨brought, held', nothing⟩ := grown.brings
      refine ⟨brought, ?_, fun none => includes ▸ nothing none⟩
      rw [List.append_nil] at held'
      have all := held'.trans (held.append_right _)
      rw [List.perm_iff_count] at all ⊢
      intro c
      have := all c
      rw [Builder.held, Builder.contents, empty, script] at this
      simp only [List.flatMap_nil, List.append_nil, List.count_append] at this ⊢
      omega
  unfold finish at run
  split at run
  · next script hs =>
    refine closed (s.withDocument fun d => { d with
      scripts := d.scripts ++ [⟨{ script.span with stop }, script.children⟩] }) rfl ?_ run
    rw [List.perm_iff_count]
    intro c
    simp only [held, Document.scriptContents, Session.withDocument, List.flatMap_append,
      List.flatMap_singleton, hs, Option.map_some, Option.getD_some, OpenScript.contents,
      List.append_assoc]
  · next other =>
    have outside : b.script = none := Option.eq_none_iff_forall_ne_some.2 fun script => other script
    refine closed s rfl ?_ run
    rw [outside]
    simp

/-- Without included files nothing else is held. -/
theorem held_finish {stop : Position} {s s' : Session} {body : Body} (sound : b.Sound)
    (run : (b.finish stop).run.run s = (.ok body, s')) :
    (b.outer.type = none → body.templates = []) ∧
      (s'.document.includes = [] → s.document.includes = [] ∧
        (body.contents ++ s'.document.scriptContents).Perm (b.held s)) := by
  obtain ⟨bare, brought, held, nothing⟩ := b.brings_finish sound run
  refine ⟨bare, fun none => ?_⟩
  obtain ⟨none₀, rfl⟩ := nothing none
  rw [List.append_nil] at held
  exact ⟨none₀, held⟩

end Builder

/-- **A file is parsed soundly**: the files that it includes and all that it holds are on record, and
it has templates at the top only if it stands in a typed node. -/
theorem sound_parseFile (p : Project) (depth : Nat) (parsing : List String) :
    (parseFile p depth parsing).Sound := by
  induction depth generalizing parsing with
  | zero =>
    intro path text var outer s body s' hr
    cases hr
    refine ⟨⟨id, [], ?_⟩, fun _ => rfl⟩
    rw [List.append_nil]
    exact .refl _
  | succ depth ih =>
    intro path text var outer s body s' hr
    rw [parseFile, buildItems, run_bind] at hr
    split at hr
    · next b s₁ hb =>
      have grown := adds_foldlM p _ _ (ih (path :: parsing)) (Builder.sound_start path var outer) hb
      obtain ⟨templates, last, held, nothing⟩ := b.brings_finish grown.sound hr
      obtain ⟨brought, held₁, nothing₁⟩ := grown.brings
      have fresh : (Builder.start path var outer).held s = s.document.scriptContents := rfl
      have all := held.trans (held₁.append_right last)
      rw [fresh, List.append_assoc, List.append_assoc] at all
      exact ⟨⟨fun none => (nothing₁ (nothing none).1).1, _, all⟩,
        fun none => templates (by rw [grown.outer]; exact none)⟩
    · cases hr

end ServerMarkup
