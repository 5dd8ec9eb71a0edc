/-
# An include stands for its items

An included file is parsed by a builder of its own, from an empty stack, and its tree is then put at
the comment.  While it is parsed, the builder that goes on over the same items at the comment
matches it (`Builder.Hosts`): it has the frames of the file on top of its own, and the nodes of the
file at the end of the body around the comment.  Each item keeps that (`Hosts.follows_buildItem`) as
long as the file closes no tag that it has not opened, so all items do (`follows_foldlM`), and at
the end of a balanced file the one builder is the other with the tree put in (`Hosts.splice`).

What an item does must not depend on the file it stands in.  Two do: a comment that includes a file
in turn, and a directive that registers the control in a file (`SelfContained`).
-/

import ServerMarkup.Proofs.Content.Counts
import ServerMarkup.Proofs.Include.Hosted
import ServerMarkup.Proofs.Include.References
import ServerMarkup.Proofs.Include.Seams
import ServerMarkup.Types.Catalog

namespace ServerMarkup

namespace ItemForm

/-- Whether the item may register the control in a file. -/
def readsControl : ItemForm → Bool
  | .directive .register attributes _ => (attributes.find? "src").isSome
  | _ => false

end ItemForm

/-- Whether the items do the same in any file: none includes a file or reads the control in one. -/
def SelfContained (items : List Item) : Prop :=
  ∀ item ∈ items, item.form.reference? = none ∧ item.form.readsControl = false

instance (items : List Item) : Decidable (SelfContained items) :=
  List.decidableBAll _ items

/-- How many tags are open behind the items if `n` are open before them; none, if a closing tag
closes nothing.  A script counts as a tag. -/
def openAfter : Nat → List Item → Option Nat
  | n, [] => some n
  | n, item :: items =>
    match item.form with
    | .startTag t => openAfter (if Builder.hasContent t then n + 1 else n) items
    | .endTag _ => if n = 0 then none else openAfter (n - 1) items
    | _ => openAfter n items

section
variable {item : Item} {items : List Item} {k m : Nat}

theorem openAfter_of_still (still : item.form.isStill = true) :
    openAfter k (item :: items) = openAfter k items := by
  rw [openAfter]
  cases hf : item.form <;> simp_all [ItemForm.isStill]

theorem openAfter_of_startTag {t : StartTag} (hf : item.form = .startTag t) :
    openAfter k (item :: items) = openAfter (if Builder.hasContent t then k + 1 else k) items := by
  rw [openAfter, hf]

theorem openAfter_of_endTag (ends : item.form.isEndTag = true)
    (h : openAfter k (item :: items) = some m) : k ≠ 0 ∧ openAfter (k - 1) items = some m := by
  rw [openAfter] at h
  cases hf : item.form with
  | endTag tag =>
    simp only [hf] at h
    split at h
    · cases h
    · next some => exact ⟨some, h⟩
  | _ => simp [hf, ItemForm.isEndTag] at ends

end

/-- The number of open tags, with an open script. -/
def Outline.depth (o : Outline) : Nat :=
  o.frames.length + if o.script.isSome then 1 else 0

/-- Only the registration of a control reads the file's own path. -/
theorem Project.direct_eq (p : Project) (file file' : String) {kind : DirectiveKind}
    {as : DirectiveAttributes} {span : Span}
    (h : (ItemForm.directive kind as span).readsControl = false) :
    p.direct file kind as span = p.direct file' kind as span := by
  unfold direct
  split
  · rfl
  · split
    · next hk =>
      have none : as.find? "src" = none := by simpa [ItemForm.readsControl, hk] using h
      unfold register
      rw [none]
      cases as.find? "tagprefix" <;> cases as.find? "namespace" <;> cases as.find? "tagname" <;> rfl
    · rfl

section
variable {p : Project} {parsing : List String} {nested : Nested} {i : Include} {b n d : Builder}
  {item : Item} {items : List Item}

/-- An item that includes nothing and registers no control does the same in both builders. -/
theorem Builder.Hosts.follows_buildItem (h : b.Hosts n d) (sound : n.Sound)
    (alone : item.form.reference? = none) (plain : item.form.readsControl = false)
    (closes : n.script = none → item.form.isEndTag = true → n.stack ≠ [])
    (parsing' : List String) (nested' : Nested) :
    Follows i b.Hosts (buildItem p parsing nested n item)
      (buildItem p parsing' nested' d item) := by
  have scripts := h.script_eq
  unfold buildItem
  dsimp only
  cases hs : n.script with
  | some script =>
    rw [hs] at scripts
    obtain ⟨script', hd, same⟩ := Option.map_eq_some_iff.1 scripts.symm
    rw [hd]
    exact h.follows_scriptItem same.symm item _
  | none =>
    rw [hs] at scripts
    have outside : d.script = none := Option.map_eq_none_iff.1 scripts.symm
    rw [outside]
    cases hf : item.form with
    | text e => exact .pure (h.addLeaf _ _)
    | code kind e span => exact .pure (h.addLeaf _ _)
    | comment e span =>
      have none : includeReference? e.value = none := by
        rwa [hf] at alone
      simp only [none]
      exact .pure h
    | directive kind as span =>
      rw [hf] at plain
      dsimp only
      rw [p.direct_eq _ ((d.addLeaf span (.directive kind (recordOf as))).file) plain]
      exact (Follows.of_aside (p.mild_direct _ _ _ _).aside).bind fun _ _ _ => .pure (h.addLeaf _ _)
    | startTag t => exact h.follows_openTag p t
    | endTag tag => exact h.follows_closeTag sound (closes hs (by rw [hf]; rfl)) tag _
    | stray => exact .pure h

/-- What an item does to the number of open tags. -/
theorem gives_depth {t : Token} {ts : List Token} (inside : n.Inside (t :: ts))
    (h : openAfter n.outline.depth (Item.first t ts :: items) = some 0) :
    Gives (buildItem p parsing nested n (.first t ts))
      (fun n' => openAfter n'.outline.depth items = some 0) := by
  cases hs : n.script with
  | some script =>
    have body : ScriptBody (t :: ts) := inside.resolve_left (by simp [hs])
    refine (gives_buildItem_of_script p parsing nested hs).mono fun n' outline => ?_
    have within : n.outline.script.isSome = true := by simp [Builder.outline, hs]
    have read : (Item.first t ts).form.isEndTag = true ∨ (Item.first t ts).form.isStill = true :=
      body.read.imp_right And.left
    rcases read with ended | still
    · have closed := (openAfter_of_endTag ended h).2
      rw [outline]
      simpa [Outline.depth, ended, within] using closed
    · rw [openAfter_of_still still] at h
      have notEnd := ItemForm.isEndTag_of_isStill still
      rw [outline]
      simpa [notEnd] using h
  | none =>
    have outside : n.outline.script = none := by simp [Builder.outline, hs]
    cases hf : (Item.first t ts).form with
    | startTag tag =>
      rw [openAfter_of_startTag hf] at h
      refine (gives_buildItem_of_startTag p parsing nested hs hf).mono fun n' opens => ?_
      rcases opens with frame | ⟨script, outline⟩
      · rw [frame]
        split at h <;> simpa [Outline.depth, Outline.push, outside, *] using h
      · rw [script.hasContent, if_pos rfl] at h
        rw [outline]
        simpa [Outline.depth, outside] using h
    | endTag tag =>
      obtain ⟨some, closed⟩ := openAfter_of_endTag (by rw [hf]; rfl) h
      refine (gives_buildItem_of_endTag p parsing nested hs hf).mono fun n' outline => ?_
      rw [outline]
      simpa [Outline.depth, Outline.pop, outside] using closed
    | _ =>
      have still : (Item.first t ts).form.isStill = true := by rw [hf]; rfl
      rw [openAfter_of_still still] at h
      refine (gives_buildItem_of_still p parsing nested hs still).mono fun n' outline => ?_
      rw [outline]
      exact h

/-- **The items of an included file do the same in both builders.** -/
theorem follows_foldlM {ts : List Token} (hn : nested.Sound) (closed : ScriptsClosed ts)
    (contained : SelfContained (itemsOf ts)) (parsing' : List String) (nested' : Nested)
    (h : b.Hosts n d) (sound : n.Sound) (inside : n.Inside ts)
    (balanced : openAfter n.outline.depth (itemsOf ts) = some 0) :
    Follows i (fun n d => b.Hosts n d ∧ n.Sound ∧ n.outline.depth = 0)
      ((itemsOf ts).foldlM (buildItem p parsing nested) n)
      ((itemsOf ts).foldlM (buildItem p parsing' nested') d) := by
  fun_induction itemsOf ts generalizing n d with
  | case1 => exact .pure ⟨h, sound, by simpa [openAfter] using balanced⟩
  | case2 t ts form k hr ih =>
    have item : (⟨form, t :: ts.take k⟩ : Item) = .first t ts := by rw [Item.first, hr]
    rw [item] at contained balanced ⊢
    obtain ⟨⟨alone, plain⟩, others⟩ := List.forall_mem_cons.1 contained
    have rest : (Item.read t ts).2 = k := by rw [hr]
    have closes : n.script = none → (Item.first t ts).form.isEndTag = true → n.stack ≠ [] := by
      intro outside ends empty
      obtain ⟨some, -⟩ := openAfter_of_endTag ends balanced
      simp [Outline.depth, Builder.outline, outside, empty] at some
    have first : Follows i b.Hosts (buildItem p parsing nested n (.first t ts))
        (buildItem p parsing' nested' d (.first t ts)) :=
      h.follows_buildItem sound alone plain closes parsing' nested'
    rw [List.foldlM_cons, List.foldlM_cons]
    refine (first.and_gives (P := fun n' => n'.Sound ∧ n'.Inside (ts.drop k) ∧
      openAfter n'.outline.depth (itemsOf (ts.drop k)) = some 0) ?_).bind ?_
    · intro s n' s' run
      have inside' := inside_buildItem closed inside s n' s' run
      rw [rest] at inside'
      exact ⟨(adds_buildItem p parsing nested hn sound s n' s' run).sound, inside',
        gives_depth inside balanced s n' s' run⟩
    · rintro n' d' ⟨hosts, sound', inside', balanced'⟩
      exact ih (closed.tail.drop k) others hosts sound' inside' balanced'

end

/-! ### Splicing -/

namespace Builder

section
variable (b : Builder)

theorem withBody_withBody (f g : Body → Body) :
    (b.withBody f).withBody g = b.withBody fun body => g (f body) := by
  unfold withBody
  cases b.stack <;> rfl

/-- Templates join the node around the current place if it has a type. -/
theorem addTemplates_of_typed {ts : List Template} (typed : ts ≠ [] → b.enclosing.1 ≠ none) :
    ts.foldl addTemplate b =
      b.withBody fun body => { body with templates := body.templates ++ ts } := by
  induction ts generalizing b with
  | nil =>
    simp only [List.append_nil]
    exact b.withBody_id.symm
  | cons t ts ih =>
    have here := typed (List.cons_ne_nil t ts)
    rw [List.foldl_cons, addTemplate_of_typed here, ih, withBody_withBody]
    · simp
    · rw [enclosing_withBody]
      exact fun _ => here

/-- At the comment the included file has built nothing. -/
theorem hosts_start (outside : b.script = none) (file var : String) :
    b.Hosts (.start file var b.place) b := by
  refine ⟨rfl, ?_⟩
  have same : b.host (.start file var b.place) = b := by
    obtain ⟨_, _, _, stack, script⟩ := b
    obtain rfl : script = none := outside
    cases stack <;> simp [host, withBody, Body.extend, start, Body.start]
  rw [same]

theorem eq_nil_of_depth {n : Builder} (done : n.outline.depth = 0) :
    n.stack = [] ∧ n.script = none := by
  simpa [Outline.depth, outline] using done

/-- With no tag open nothing is left to do at the end. -/
theorem finish_of_depth (n : Builder) (done : n.outline.depth = 0) (stop : Position) :
    n.finish stop = pure n.root := by
  obtain ⟨empty, outside⟩ := eq_nil_of_depth done
  simp only [finish, empty, outside, closeFrames, pure_bind]

/-- At its end the tree of the included file is put where it has been built in the other builder. -/
theorem Hosts.splice {b n d : Builder} (h : b.Hosts n d) (sound : n.Sound)
    (outside : b.script = none) (done : n.outline.depth = 0) :
    (n.root.templates.foldl Builder.addTemplate (b.newVar.2.append n.root.children)).unnamed =
      d.unnamed := by
  have empty := eq_nil_of_depth done
  have typed : n.root.templates ≠ [] → (b.newVar.2.append n.root.children).enclosing.1 ≠ none := by
    rw [Builder.append, enclosing_withBody, Builder.newVar, enclosing_withBody]
    intro some none
    exact some (sound.root (by rw [h.outer]; exact none))
  have host : b.host n = b.withBody (·.extend n.root) := by
    have script := b.script_withBody (·.extend n.root)
    simp only [Builder.host, empty, List.nil_append, ← outside, ← script]
  rw [addTemplates_of_typed _ typed, h.same, host]
  rw [Builder.append, withBody_withBody, b.newVar.2.unnamed_withBody (g := fun body =>
      ⟨"", body.children ++ unnamedAll n.root.children,
        body.templates ++ unnamedTemplates n.root.templates, 0⟩), unnamed_newVar,
    b.unnamed_withBody]
  · intro body
    simp [Body.unnamed, Body.extend]
  · intro body
    simp [Body.unnamed, Body.append]

end

end Builder

/-! ### Included files -/

/-- A file may be included as if its items stood at the comment: its tags are balanced, its last tag
or directive is not cut off by its end, and its items do the same in any file. -/
structure Includable (items : List Item) : Prop where
  balanced : openAfter 0 items = some 0
  uncut : ∀ item ∈ items.getLast?, item.isCut = false
  contained : SelfContained items

instance (items : List Item) : Decidable (Includable items) :=
  decidable_of_iff (openAfter 0 items = some 0 ∧ (∀ item ∈ items.getLast?, item.isCut = false) ∧
    SelfContained items) ⟨fun ⟨h, h', h''⟩ => ⟨h, h', h''⟩, fun ⟨h, h', h''⟩ => ⟨h, h', h''⟩⟩

/-- **An include does what its items would do in its place**: put there the tokens of the file make
the same items, and building goes on over them from the comment to the same builder and session, but
for generated names and the record of the included file. -/
theorem include_in_place {p : Project} {parsing : List String} {depth : Nat} {b : Builder}
    {item : Item} {reference path text : String}
    (outside : b.script = none) (names : item.form.reference? = some reference)
    (resolved : resolveReference b.file reference = path) (fresh : nameIn parsing path = false)
    (readable : p.files.read path = .ok text)
    (included : Includable (itemsOf (tokenize path text))) (session : Session) :
    (∀ s st, itemsOf (tokenize path text ++ LexerState.tokens s st) =
        itemsOf (tokenize path text) ++ itemsOf (LexerState.tokens s st)) ∧
      Alike ⟨path, contentHash text⟩ (fun n d => n.unnamed = d.unnamed)
        ((buildItem p parsing (parseFile p (depth + 1) parsing) b item).run.run session)
        (((itemsOf (tokenize path text)).foldlM
          (buildItem p parsing (parseFile p (depth + 1) parsing)) b).run.run session) := by
  constructor
  · exact fun s st => itemsOf_append_of_uncut included.uncut fun u => LexerState.head?_tokens
  · rw [Builder.run_include outside names resolved fresh readable session]
    have whole : Follows ⟨path, contentHash text⟩ (fun n d => n.unnamed = d.unnamed)
        (parseFile p (depth + 1) parsing path text b.newVar.1 b.place >>= fun body => pure
          (body.templates.foldl Builder.addTemplate (b.newVar.2.append body.children)))
        ((itemsOf (tokenize path text)).foldlM
          (buildItem p parsing (parseFile p (depth + 1) parsing)) b) := by
      rw [← bind_pure (List.foldlM _ _ _), parseFile, buildItems, bind_assoc]
      refine (follows_foldlM (sound_parseFile p _ _)
        (LexerState.scriptsClosed_tokens (LexerState.on_start _)) included.contained parsing _
        (b.hosts_start outside path _) (Builder.sound_start _ _ _) (.inl rfl)
        included.balanced).bind ?_
      rintro n d ⟨hosts, sound, done⟩
      rw [n.finish_of_depth done, pure_bind]
      exact .pure (hosts.splice sound outside done)
    exact whole _ _ (twin_addInclude session)

/-- A file with a tag and a text. -/
def panelText : String :=
  "<Panel a=b>x</Panel>"

/-- A project with the file. -/
def Project.panel : Project :=
  ⟨Catalog.empty.resolver, Files.empty.insert "a.inc" panelText, .standard⟩

/-- The file is included as its items. -/
theorem include_in_place_panel : ∃ item,
    itemsOf (tokenize "page.aspx" "<%--#include file=a.inc--%>") = [item] ∧
      Alike ⟨"a.inc", contentHash panelText⟩ (fun n d => n.unnamed = d.unnamed)
        ((buildItem .panel ["page.aspx"] (parseFile .panel 1 ["page.aspx"])
          (.start "page.aspx" "ctrl" .none) item).run.run
            (.start .standard "page.aspx" "<%--#include file=a.inc--%>" .empty))
        (((itemsOf (tokenize "a.inc" panelText)).foldlM
          (buildItem .panel ["page.aspx"] (parseFile .panel 1 ["page.aspx"]))
          (.start "page.aspx" "ctrl" .none)).run.run
            (.start .standard "page.aspx" "<%--#include file=a.inc--%>" .empty)) := by
  have comment : (itemsOf (tokenize "page.aspx" "<%--#include file=a.inc--%>")).map
      (·.form.reference?) = [some "a.inc"] := by decide +kernel
  obtain ⟨item, only, names⟩ := List.map_eq_singleton_iff.1 comment
  have outside : (Builder.start "page.aspx" "ctrl" .none).script = none := rfl
  have resolved : resolveReference "page.aspx" "a.inc" = "a.inc" := by decide +kernel
  have fresh : nameIn ["page.aspx"] "a.inc" = false := by decide +kernel
  have readable : Project.panel.files.read "a.inc" = .ok panelText := by decide +kernel
  have included : Includable (itemsOf (tokenize "a.inc" panelText)) := by decide +kernel
  exact ⟨item, only,
    (include_in_place outside names resolved fresh readable included _).2⟩

end ServerMarkup
