/-
# Items that a run comes to

A run comes to an item when those before it have been built, in the file itself or in one that is
included there, at any depth (`Comes`).  What has been done until then is a part of the history,
from the first moment on (`Comes.course`), so before a main directive the document says what it has
said at the beginning (`Comes.untold`).  If the run does not fail, it gets over the item, and all
that is held then it keeps to its end (`Comes.onward`).
-/

import ServerMarkup.Proofs.History.Runs
import ServerMarkup.Proofs.Include.Hosted
import ServerMarkup.Proofs.Include.Termination

namespace ServerMarkup

/-! ### What is said at a moment -/

/-- Before a main directive is acted on, the document says the same as another one. -/
def Moment.Untold (d : Document) (m : Moment) : Prop :=
  m.session.described = false → d.SaysSame m.session.document

section
variable {p : Project} {m : Moment} {d : Document}

/-- Only a main directive tells that it has been met. -/
theorem Deed.described_of_change {deed : Deed} {s : Session}
    (h : (deed.change s).described = false) : s.described = false := by
  cases deed with
  | describe => cases h
  | _ => exact h

theorem Moment.Untold.after {deed : Deed} (h : m.Untold d) (fits : deed.Fits p m) :
    (m.after deed).Untold d := by
  intro fresh
  have before := Deed.described_of_change fresh
  refine (h before).trans (deed.saysSame fits fun acting => ?_)
  exact Bool.noConfusion (acting.1.symm.trans before)

theorem Moment.Untold.past {ds : List Deed} (h : m.Untold d) (course : Course p m ds) :
    (m.past ds).Untold d := by
  induction ds generalizing m with
  | nil => exact h
  | cons deed ds ih => exact ih (h.after course.1) course.2

/-- Behind a main directive a step that has a history says nothing else. -/
theorem Traced.saysSame {α : Type} {x : Parse α} {Q : List Deed → α → Prop} {s s' : Session} {a : α}
    (h : Traced p Moment.Steady Moment.Steady x Q) (run : x.run.run s = (.ok a, s'))
    (described : s.described = true) :
    s'.described = true ∧ s.document.SaysSame s'.document := by
  obtain ⟨ds, does, ends⟩ := h ⟨s, true⟩ described
  have session := does.session_eq
  rw [run] at session
  obtain ⟨settled, same⟩ := does.course.grows.settled rfl
  have steady := (ends a s' run).1.trans settled
  rw [session] at same steady
  exact ⟨steady, same⟩

end

/-! ### Coming to an item -/

/-- The builder of a file and its session when some items have been built. -/
def builtBy (p : Project) (depth : Nat) (f : Parsing) (var : String) (outer : Outer)
    (items : List Item) (s : Session) : Except Failure Builder × Session :=
  (items.foldlM (buildItem p f.paths (parseFile p depth f.paths))
    (.start f.file var outer)).run.run s

/-- The parse of the files `f` comes to the item of the files `g` with the builder and the second
session. -/
inductive Comes (p : Project) : Nat → Parsing → String → Outer → Session → Parsing → Builder →
    Item → Session → Prop where
  | here {depth : Nat} {f : Parsing} {var : String} {outer : Outer} {s s₁ : Session} {b : Builder}
    {before rest : List Item} {item : Item}
    (split : itemsOf (tokenize f.file f.text) = before ++ item :: rest)
    (reach : builtBy p depth f var outer before s = (.ok b, s₁)) :
    Comes p (depth + 1) f var outer s f b item s₁
  /-- The item stands in a file that a comment includes. -/
  | within {depth : Nat} {f g : Parsing} {var : String} {outer : Outer} {s s₁ s₂ : Session}
    {b b' : Builder} {before rest : List Item} {comment item : Item} {reference path text : String}
    (split : itemsOf (tokenize f.file f.text) = before ++ comment :: rest)
    (reach : builtBy p depth f var outer before s = (.ok b, s₁)) (outside : b.script = none)
    (names : comment.form.reference? = some reference)
    (resolved : resolveReference f.file reference = path) (fresh : nameIn f.paths path = false)
    (readable : p.files.read path = .ok text)
    (inner : Comes p depth ⟨path, text, f.paths⟩ b.newVar.1 b.place
      (s₁.withDocument (·.addInclude path (contentHash text))) g b' item s₂) :
    Comes p (depth + 1) f var outer s g b' item s₂

/-- The parse of the file comes to the item of the files `g`, in the file itself or in one that is
included. -/
def Project.ComesTo (p : Project) (path text : String) (registry : Registry) (g : Parsing)
    (b : Builder) (item : Item) (s₁ : Session) : Prop :=
  Comes p (includeDepth p (normalPath path) text) ⟨normalPath path, text, []⟩ "ctrl" .none
    (.start p.options (normalPath path) text (registry.addDefaults p.options)) g b item s₁

section
variable {p : Project} {depth : Nat} {f g : Parsing} {var : String} {outer : Outer}
  {s s₁ s' : Session} {b : Builder} {before rest : List Item} {item : Item} {body : Body}

theorem file_foldlM {nested : Nested} {parsing : List String} {items : List Item} :
    Gives (items.foldlM (buildItem p parsing nested) b) (·.file = b.file) := by
  induction items generalizing b with
  | nil => exact .pure rfl
  | cons item items ih =>
    rw [List.foldlM_cons]
    exact (file_buildItem item).bind fun b' same => ih.mono fun _ kept => kept.trans same

theorem file_builtBy (reach : builtBy p depth f var outer before s = (.ok b, s₁)) :
    b.file = f.file :=
  file_foldlM s b s₁ reach

theorem sound_builtBy (reach : builtBy p depth f var outer before s = (.ok b, s₁)) : b.Sound :=
  (adds_foldlM p _ _ (sound_parseFile p depth f.paths) (Builder.sound_start _ _ _) reach).sound

/-- The builder at the item is that of its file. -/
theorem Comes.file_eq (h : Comes p depth f var outer s g b item s₁) : b.file = g.file := by
  induction h with
  | here split reach => exact file_builtBy reach
  | within _ _ _ _ _ _ _ _ ih => exact ih

/-- The item is one of its file. -/
theorem Comes.mem (h : Comes p depth f var outer s g b item s₁) :
    item ∈ itemsOf (tokenize g.file g.text) := by
  induction h with
  | here split reach =>
    rw [split]
    exact List.mem_append_right _ List.mem_cons_self
  | within _ _ _ _ _ _ _ _ ih => exact ih

/-- What has been done before an item of the file itself is a history. -/
theorem course_builtBy (split : itemsOf (tokenize f.file f.text) = before ++ item :: rest)
    (reach : builtBy p depth f var outer before s = (.ok b, s₁)) {m : Moment} (steady : m.Steady)
    (session : m.session = s) :
    ∃ ds, Course p m ds ∧ (m.past ds).Steady ∧ (m.past ds).session = s₁ := by
  have mem : ∀ i ∈ before, i ∈ itemsOf (tokenize f.file f.text) := fun i mem => by
    rw [split]
    exact List.mem_append_left _ mem
  have records := records_foldlM (b := .start f.file var outer) (f := f) rfl mem
    (Builder.sound_start _ _ _) (sound_parseFile p depth f.paths)
      (records_parseFile p depth f.paths)
  obtain ⟨ds, does, ends⟩ := records m steady
  subst session
  exact ⟨ds, does.course, (ends b s₁ reach).1, does.session_eq.trans (congrArg Prod.snd reach)⟩

/-- **What has been done before an item is a history.** -/
theorem Comes.course (h : Comes p depth f var outer s g b item s₁) {m : Moment} (steady : m.Steady)
    (session : m.session = s) :
    ∃ ds, Course p m ds ∧ (m.past ds).Steady ∧ (m.past ds).session = s₁ := by
  induction h generalizing m with
  | here split reach => exact course_builtBy split reach steady session
  | @within depth f g var outer s s₁ s₂ b b' before rest comment item reference path text split
      reach outside names resolved fresh readable inner ih =>
    obtain ⟨ds, course, steady₁, here⟩ := course_builtBy split reach steady session
    have noted : (Deed.addInclude path text).Fits p (m.past ds) := ⟨steady₁, readable⟩
    have session₁ : ((m.past ds).after (.addInclude path text)).session =
        s₁.withDocument (·.addInclude path (contentHash text)) := by
      rw [Moment.after, here]
      rfl
    obtain ⟨es, course', steady', there⟩ := ih (steady₁.after rfl rfl) session₁
    refine ⟨ds ++ .addInclude path text :: es, course_append.2 ⟨course, noted, course'⟩, ?_, ?_⟩
    · rwa [Moment.past_append, Moment.past_cons]
    · rwa [Moment.past_append, Moment.past_cons]

/-- Before a main directive the document says what it has said at the beginning. -/
theorem Comes.untold (h : Comes p depth f var outer s g b item s₁) (fresh : s.described = false)
    (still : s₁.described = false) : s.document.SaysSame s₁.document := by
  obtain ⟨ds, course, -, rfl⟩ := h.course (m := ⟨s, false⟩) fresh rfl
  exact Moment.Untold.past (fun _ => .refl _) course still

end

/-! ### Going on from an item -/

/-- What the builder and the session hold is in the body and the scripts at the end, and what has
been said stays. -/
structure Kept (b : Builder) (s : Session) (body : Body) (s' : Session) : Prop where
  held : ∀ c ∈ b.held s, c ∈ body.contents ++ s'.document.scriptContents
  said : s.described = true → s'.described = true ∧ s.document.SaysSame s'.document

section
variable {p : Project} {depth : Nat} {f g : Parsing} {var : String} {outer : Outer}
  {s s₁ s' : Session} {b : Builder} {before rest : List Item} {item : Item} {body : Body}

/-- A file that is parsed is built over each of its items, and what is held then it keeps. -/
theorem exists_kept (split : itemsOf (tokenize f.file f.text) = before ++ item :: rest)
    (run : (parseFile p (depth + 1) f.around f.file f.text var outer).run.run s = (.ok body, s')) :
    ∃ b s₁ b₂ s₂, builtBy p depth f var outer before s = (.ok b, s₁) ∧
      (buildItem p f.paths (parseFile p depth f.paths) b item).run.run s₁ = (.ok b₂, s₂) ∧
        Kept b₂ s₂ body s' := by
  have nested := sound_parseFile p depth f.paths
  rw [parseFile, buildItems] at run
  obtain ⟨b₃, s₃, built, finish⟩ := exists_of_run_bind run
  rw [split, List.foldlM_append] at built
  obtain ⟨b, s₁, reach, built⟩ := exists_of_run_bind built
  rw [List.foldlM_cons] at built
  obtain ⟨b₂, s₂, step, built⟩ := exists_of_run_bind built
  have sound := (adds_buildItem p _ _ nested (sound_builtBy reach) s₁ b₂ s₂ step).sound
  have file : b₂.file = f.file := (file_buildItem item s₁ b₂ s₂ step).trans (file_builtBy reach)
  have grown := adds_foldlM p _ _ nested sound built
  obtain ⟨-, brought, held, -⟩ := b₃.brings_finish grown.sound finish
  have later : ∀ i ∈ rest, i ∈ itemsOf (tokenize f.file f.text) := fun i mem => by
    rw [split]
    exact List.mem_append_right _ (List.mem_cons_of_mem _ mem)
  have records := records_foldlM file later sound nested (records_parseFile p depth f.paths)
  have closes (stop : Position) : Records p (Met p f) b₃.pieces (b₃.finish stop) Body.pieces :=
    Builder.records_finish grown.sound stop
  refine ⟨b, s₁, b₂, s₂, reach, step, fun c mem => ?_, fun described => ?_⟩
  · exact held.mem_iff.2 (List.mem_append_left _ (grown.mem_held (.inl mem)))
  · obtain ⟨described₃, same⟩ := records.saysSame built described
    obtain ⟨described', same'⟩ := (closes _).saysSame finish described₃
    exact ⟨described', same.trans same'⟩

/-- What an included file keeps, the file around it keeps. -/
theorem Kept.around {b₂ b' : Builder} {s₂ : Session} {inner : Body} (h : Kept b' s₁ inner s₂)
    (k : Kept b₂ s₂ body s') (held : ∀ c ∈ inner.contents, c ∈ b₂.contents) :
    Kept b' s₁ body s' := by
  refine ⟨fun c mem => k.held c ?_, fun described => ?_⟩
  · obtain tree | script := List.mem_append.1 (h.held c mem)
    · exact List.mem_append_left _ (held c tree)
    · exact List.mem_append_right _ script
  · obtain ⟨described₂, same⟩ := h.said described
    obtain ⟨described', same'⟩ := k.said described₂
    exact ⟨described', same.trans same'⟩

/-- A run that gets over a comment has parsed the file that this includes. -/
theorem exists_parsed {comment : Item} {reference path text : String}
    (split : itemsOf (tokenize f.file f.text) = before ++ comment :: rest)
    (reach : builtBy p depth f var outer before s = (.ok b, s₁)) (outside : b.script = none)
    (names : comment.form.reference? = some reference)
    (resolved : resolveReference f.file reference = path) (fresh : nameIn f.paths path = false)
    (readable : p.files.read path = .ok text)
    (run : (parseFile p (depth + 1) f.around f.file f.text var outer).run.run s = (.ok body, s')) :
    ∃ inner s₂, (parseFile p depth f.paths path text b.newVar.1 b.place).run.run
        (s₁.withDocument (·.addInclude path (contentHash text))) = (.ok inner, s₂) ∧
      Kept (inner.templates.foldl Builder.addTemplate (b.newVar.2.append inner.children)) s₂
        body s' := by
  obtain ⟨b', s₁', b₂, s₂, reach', step, kept⟩ := exists_kept split run
  obtain ⟨⟨rfl⟩, rfl⟩ := Prod.mk.inj (reach'.symm.trans reach)
  rw [← file_builtBy reach] at resolved
  rw [Builder.run_include outside names resolved fresh readable] at step
  obtain ⟨inner, s₃, parsed, ends⟩ := exists_of_run_bind step
  cases ends
  exact ⟨inner, _, parsed, kept⟩

/-- **A run gets over each item that it comes to**, and keeps to its end what is held then. -/
theorem Comes.onward (h : Comes p depth f var outer s g b item s₁)
    (run : (parseFile p depth f.around f.file f.text var outer).run.run s = (.ok body, s')) :
    ∃ nested b₂ s₂, (buildItem p g.paths nested b item).run.run s₁ = (.ok b₂, s₂) ∧
      Kept b₂ s₂ body s' := by
  induction h generalizing body s' with
  | here split reach =>
    obtain ⟨b', s₁', b₂, s₂, reach', step, kept⟩ := exists_kept split run
    obtain ⟨⟨rfl⟩, rfl⟩ := Prod.mk.inj (reach'.symm.trans reach)
    exact ⟨_, b₂, s₂, step, kept⟩
  | within split reach outside names resolved fresh readable inner ih =>
    obtain ⟨tree, s₃, parsed, kept⟩ :=
      exists_parsed split reach outside names resolved fresh readable run
    obtain ⟨nested, b₄, s₄, step, kept'⟩ := ih parsed
    refine ⟨nested, b₄, s₄, step, kept'.around kept fun c mem => ?_⟩
    refine (Builder.contents_addTemplates _ _).mem_iff.2 ?_
    obtain child | template := List.mem_append.1 mem
    · refine List.mem_append_left _ ((Builder.contents_append _ _).mem_iff.2 ?_)
      exact List.mem_append_right _ child
    · exact List.mem_append_right _ template

/-- There is depth for a file and one that it includes. -/
theorem two_le_includeDepth (p : Project) (path text : String) : 2 ≤ includeDepth p path text :=
  Nat.le_trans (Nat.le_add_left 2 _) (Nat.le_self_pow (Nat.succ_ne_zero _) _)

/-- If a file begins with a comment that includes another one, its parse comes to the first item of
that before anything is said. -/
theorem Project.exists_comesTo_first {file text path stored reference : String} {comment : Item}
    {others : List Item} (registry : Registry)
    (items : itemsOf (tokenize (normalPath file) text) = comment :: others)
    (names : comment.form.reference? = some reference)
    (resolved : resolveReference (normalPath file) reference = path)
    (fresh : nameIn [normalPath file] path = false) (readable : p.files.read path = .ok stored)
    (first : itemsOf (tokenize path stored) = item :: rest) :
    ∃ b s₁, p.ComesTo file text registry ⟨path, stored, [normalPath file]⟩ b item s₁ ∧
      b.script = none ∧ s₁.described = false := by
  obtain ⟨depth, deep⟩ := Nat.exists_eq_add_of_le' (two_le_includeDepth p (normalPath file) text)
  have outside : itemsOf (tokenize (normalPath file) text) = [] ++ comment :: others := items
  have inside : itemsOf (tokenize path stored) = [] ++ item :: rest := first
  unfold ComesTo
  rw [deep]
  exact ⟨_, _, .within outside rfl rfl names resolved fresh readable (.here inside rfl), rfl, rfl⟩

end

end ServerMarkup
