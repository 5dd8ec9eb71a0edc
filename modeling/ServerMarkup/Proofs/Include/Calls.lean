/-
# What a file asks of the files it includes

While a file is parsed, its builder keeps the path of the file (`file_buildItem`), so an include
comment is resolved from there.  The file is therefore built alike with any two ways to parse nested
files that agree on the files it includes (`buildItems_congr`).
-/

import ServerMarkup.Proofs.Include.Chains
import ServerMarkup.Proofs.Parse.Frames

namespace ServerMarkup

/-! ### The file of a builder -/

namespace Builder

variable (b : Builder)

/-- The file of a builder is none of what its innermost body holds. -/
@[simp] theorem file_withBody (f : Body → Body) : (b.withBody f).file = b.file := by
  unfold withBody
  split <;> rfl

/-- Adding nodes keeps the file. -/
@[simp] theorem file_append (ns : List Node) : (b.append ns).file = b.file :=
  b.file_withBody _

/-- Giving out a variable keeps the file. -/
@[simp] theorem file_newVar : b.newVar.2.file = b.file :=
  b.file_withBody _

/-- Adding a leaf keeps the file. -/
@[simp] theorem file_addLeaf (span : Span) (content : LeafContent) :
    (b.addLeaf span content).file = b.file := by
  simp [addLeaf]

/-- Adding templates keeps the file. -/
@[simp] theorem file_addTemplates (ts : List Template) :
    (ts.foldl addTemplate b).file = b.file :=
  view_addTemplates file_withBody b ts

/-- Opening a frame, or adding one without content, keeps the file. -/
theorem file_enter {b₀ : Builder} (h : b₀.file = b.file) (hasContent : Bool) (f : Frame) :
    Gives (b₀.enter hasContent f) (·.file = b.file) := by
  unfold enter
  split
  · exact .pure h
  · exact (view_attach file_withBody b₀ f).mono fun _ same => same.trans h

/-- A start tag keeps the file. -/
theorem file_openTag (p : Project) (t : StartTag) : Gives (b.openTag p t) (·.file = b.file) := by
  unfold openTag
  refine .after fun _ => ?_
  unfold openAs
  dsimp only
  split
  · exact b.file_enter b.file_newVar _ _
  · exact .after fun _ => b.file_enter b.file_newVar _ _
  · split
    · unfold openScript
      dsimp only
      split
      · exact .pure b.file_newVar
      · exact .after fun _ => .pure b.file_newVar
    split
    · exact .after fun _ => .after fun _ => b.file_enter b.file_newVar _ _
    · exact b.file_enter b.file_newVar _ _

/-- Closing the innermost frame keeps the file. -/
theorem file_closeFrame (stop : Position) : Gives (b.closeFrame stop) (·.file = b.file) := by
  unfold closeFrame
  split
  · exact .pure rfl
  · exact view_attach file_withBody _ _

/-- A closing tag keeps the file. -/
theorem file_closeTag (tag : TagName) (stop : Position) :
    Gives (b.closeTag tag stop) (·.file = b.file) := by
  unfold closeTag
  split
  · exact .pure rfl
  · dsimp only
    split
    · exact b.file_closeFrame stop
    · exact .after fun _ => b.file_closeFrame stop

/-- An item of a script keeps the file. -/
theorem file_scriptItem (script : OpenScript) (item : Item) (stop : Position) :
    Gives (b.scriptItem script item stop) (·.file = b.file) := by
  unfold scriptItem
  split
  · exact .after fun _ => .pure rfl
  · exact .pure rfl

end Builder

section
variable {p : Project} {parsing : List String} {nested nested' : Nested} {b : Builder}

/-- An included file keeps the file of the comment. -/
theorem file_includeFile (reference : String) (span : Span) :
    Gives (includeFile p parsing nested b reference span) (·.file = b.file) := by
  unfold includeFile
  dsimp only
  split
  · exact .after fun _ => .pure rfl
  split
  · exact .after fun _ => .pure rfl
  · exact .after fun _ => .after fun _ => .after fun _ => .pure (by simp)

/-- The builder of a file keeps its path. -/
theorem file_buildItem (item : Item) :
    Gives (buildItem p parsing nested b item) (·.file = b.file) := by
  unfold buildItem
  dsimp only
  split
  · exact b.file_scriptItem _ item _
  split
  · exact .pure (b.file_addLeaf _ _)
  · exact .pure (b.file_addLeaf _ _)
  · split
    · exact file_includeFile _ _
    · exact .pure rfl
  · exact .after fun _ => .pure (b.file_addLeaf _ _)
  · exact b.file_openTag p _
  · exact b.file_closeTag _ _
  · exact .pure rfl

/-! ### Nested files -/

/-- Two steps that go on alike from all that the first part gives are the same. -/
theorem Gives.bind_congr {α β : Type} {P : α → Prop} {x : Parse α} {f g : α → Parse β}
    (hx : Gives x P) (h : ∀ a, P a → f a = g a) : x >>= f = x >>= g := by
  refine ExceptT.ext (StateT.ext fun s => ?_)
  rw [run_bind, run_bind]
  rcases hr : x.run.run s with ⟨_ | a, s'⟩
  · rfl
  · exact congrArg (·.run.run s') (h a (hx s a s' hr))

/-- What is read of a file is its text. -/
theorem gives_readFile (p : Project) (path : String) :
    Gives (p.readFile path) fun text => p.files.read path = .ok text := by
  unfold Project.readFile
  split
  · next text read => exact .pure read
  · exact fun _ _ _ run => nomatch run

/-- The two ways to parse nested files agree on the file under the path, if it can be included. -/
def AgreeOn (p : Project) (parsing : List String) (nested nested' : Nested) (path : String) :
    Prop :=
  nameIn parsing path = false → ∀ text, p.files.read path = .ok text →
    nested path text = nested' path text

/-- A comment is replaced alike if the ways to parse nested files agree on the file it names. -/
theorem includeFile_congr {reference : String} (span : Span)
    (agree : AgreeOn p parsing nested nested' (resolveReference b.file reference)) :
    includeFile p parsing nested b reference span =
      includeFile p parsing nested' b reference span := by
  unfold includeFile
  dsimp only
  split
  · rfl
  · next fresh =>
    split
    · rfl
    · refine (gives_readFile p _).bind_congr fun text readable => ?_
      rw [agree (Bool.eq_false_iff.2 fresh) text readable]

/-- An item is built alike if the ways to parse nested files agree on the file that it names, if it
names one. -/
theorem buildItem_congr {item : Item} (agree : ∀ reference, item.form.reference? = some reference →
    AgreeOn p parsing nested nested' (resolveReference b.file reference)) :
    buildItem p parsing nested b item = buildItem p parsing nested' b item := by
  unfold buildItem
  dsimp only
  split
  · rfl
  split
  case h_3 e span hf =>
    rw [hf] at agree
    split
    · next reference names => exact includeFile_congr span (agree reference names)
    · rfl
  all_goals rfl

/-- A file is built alike if the ways to parse nested files agree on those it includes. -/
theorem buildItems_congr {items : List Item} (stop : Position) (agree : ∀ item ∈ items,
    ∀ reference, item.form.reference? = some reference →
      AgreeOn p parsing nested nested' (resolveReference b.file reference)) :
    buildItems p parsing nested b items stop = buildItems p parsing nested' b items stop := by
  have same : items.foldlM (buildItem p parsing nested) b =
      items.foldlM (buildItem p parsing nested') b := by
    generalize hb : b.file = file at agree
    induction items generalizing b with
    | nil => rfl
    | cons item items ih =>
      obtain ⟨first, others⟩ := List.forall_mem_cons.1 agree
      rw [List.foldlM_cons, List.foldlM_cons, buildItem_congr (by rwa [hb])]
      exact (file_buildItem item).bind_congr fun b' kept => ih (kept.trans hb) others
  rw [buildItems, buildItems, same]

end

end ServerMarkup
