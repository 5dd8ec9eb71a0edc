/-
# Which events are bound

An attribute that names the handler of an event is bound if the page can have the handler: as far as
is known when the attributes of its tag are bound.  So the events of a typed node are told by the
attributes of its tag and by the document at that moment (`events_of_fits`), and what comes behind
the tag changes nothing any more.

The finished document tells the same, unless its base type is known and has no method for the
handler, and one of two things stands behind the tag (`Project.events_bound`):

| at the tag | finished | the event |
| --- | --- | --- |
| no main directive | no script | is bound, and the page cannot have the handler |
| a main directive, but no script | a script | is not bound, and the page can have the handler |
-/

import ServerMarkup.Proofs.Fields.Sound
import ServerMarkup.Proofs.History.Runs

namespace ServerMarkup

/-! ### Handlers -/

theorem namedAt_on_of_eventOf? {name event : String} (h : eventOf? name = some event) :
    namedAt ['o', 'n'] (lowered name).toList = true := by
  unfold eventOf? at h
  split at h
  · next o n e rest chars =>
    split at h
    · next named =>
      simp only [namedAt, Bool.and_true, Bool.and_eq_true, beq_iff_eq] at named
      rw [lowered, String.toList_ofList, chars, List.map_cons, List.map_cons, named.1, named.2]
      rfl
    · cases h
  · cases h

/-- A name that does not begin with `on` is that of no handler. -/
theorem eventOf?_eq_none {e : Excerpt} {word : String} (named : e.isNamed word = true)
    (other : namedAt ['o', 'n'] (lowered word).toList = false) : eventOf? e.value = none := by
  rw [Excerpt.isNamed, sameName_iff] at named
  rw [← named] at other
  refine Option.eq_none_iff_forall_ne_some.2 fun event h => ?_
  rw [namedAt_on_of_eventOf? h] at other
  cases other

/-- The event of the type that the attribute names the handler of, and the handler: one literal
text, under a name that does not lead through collections. -/
def Attribute.handler? (r : TypeResolver) (type : TypeRef) (a : Attribute) :
    Option (Member × Excerpt) :=
  if (Effect.path? r type a).isSome then none
  else do
    let event ← eventOf? a.name.value
    let m ← (r.memberOf type event).filter (·.kind == .event)
    return (m, ← a.value.single?)

theorem Attribute.handler?_eq_none {r : TypeResolver} {type : TypeRef} {a : Attribute}
    {word : String} (named : a.name.isNamed word = true)
    (other : namedAt ['o', 'n'] (lowered word).toList = false) : a.handler? r type = none := by
  rw [handler?, eventOf?_eq_none named other]
  exact ite_self none

/-- The base type of the page is known, and it has no method with the name. -/
def Document.Lacks (r : TypeResolver) (d : Document) (handler : String) : Prop :=
  ∃ page, d.inherits = some page ∧
    ((r.memberOf page (trimmed handler)).any fun m => m.kind == .method) = false

theorem canHandle_eq_false_iff {r : TypeResolver} {d : Document} {handler : String} :
    canHandle r d handler = false ↔ d.Lacks r handler ∧ d.scripts = [] := by
  unfold canHandle Document.Lacks
  cases d.inherits with
  | none => simp
  | some page => simp [and_comm]

/-! ### The events of a node -/

/-- The event that the effect binds. -/
def Effect.event? : Effect → Option EventBinding
  | event e => some e
  | _ => none

/-- The event of an attribute on a page that can have the handler. -/
def Attribute.event? (r : TypeResolver) (d : Document) (type : TypeRef) (a : Attribute) :
    Option EventBinding :=
  (a.handler? r type).bind fun x =>
    if canHandle r d x.2.value then some ⟨x.1.name, x.2.trim, a.span⟩ else none

section
variable {r : TypeResolver} {owner : Owner} {d : Document} {a : Attribute}

theorem eventBinding?_eq (single : Effect.path? r owner.type a = none) :
    eventBinding? r d owner.type a = a.event? r d owner.type := by
  unfold eventBinding? Attribute.event? Attribute.handler?
  rw [single, Option.isSome_none, if_neg Bool.false_ne_true]
  cases eventOf? a.name.value with
  | none => rfl
  | some event =>
    dsimp only [Option.bind_eq_bind, Option.bind_some]
    cases (r.memberOf owner.type event).filter (·.kind == .event) with
    | none => rfl
    | some m =>
      dsimp only [Option.bind_some]
      cases a.value.single? with
      | none => rfl
      | some handler =>
        dsimp only [Option.pure_def, Option.bind_some]
        cases canHandle r d handler.value <;> rfl

/-- **An attribute binds the event it names the handler of**, if the page can have the handler. -/
theorem Effect.event?_of : (Effect.of r d owner a).event? = a.event? r d owner.type := by
  unfold Effect.of
  split
  · next named =>
    rw [Attribute.event?, Attribute.handler?_eq_none named (by decide +kernel)]
    rfl
  split
  · next path leads =>
    rw [Attribute.event?, Attribute.handler?, leads]
    rfl
  · next single =>
    rw [← eventBinding?_eq single]
    cases eventBinding? r d owner.type a with
    | some event => rfl
    | none => cases declaredId? r owner a <;> rfl

theorem Placement.events_addTo (b : Bindings) (x : Placement) : (x.addTo b).events = b.events := by
  cases x <;> rfl

/-- An attribute appends the event that it binds to those of the node. -/
theorem events_bindAttribute (s : Session) (b : Bound) :
    (bindAttribute r owner s b a).2.bindings.events =
      b.bindings.events ++ (a.event? r s.document owner.type).toList := by
  rw [← Effect.event?_of]
  unfold bindAttribute
  cases Effect.of r s.document owner a with
  | nothing => exact (List.append_nil _).symm
  | event event => rfl
  | declare id => exact (List.append_nil _).symm
  | place names leaf =>
    refine Eq.trans ?_ (List.append_nil _).symm
    cases names with
    | nil => exact Placement.events_addTo ..
    | cons name names =>
      dsimp only
      rw [bindAlong]
      split <;> rfl

/-- Binding an attribute changes nothing of what tells whether the page can have a handler. -/
theorem canHandle_bindAttribute (s : Session) (b : Bound) :
    canHandle r (bindAttribute r owner s b a).1.document = canHandle r s.document := by
  obtain same | ⟨field, same⟩ | ⟨problem, same⟩ := Builder.bindAttribute_fst r owner s b a <;>
    rw [same] <;> rfl

/-- Attributes append the events that they bind.  What tells whether the page can have a handler
stays as it is, so the last session tells of all of them. -/
theorem events_foldl {s s' : Session} {b bound : Bound} {as : List Attribute}
    (binds : as.foldl (fun (s, b) a => bindAttribute r owner s b a) (s, b) = (s', bound)) :
    canHandle r s'.document = canHandle r s.document ∧ bound.bindings.events =
      b.bindings.events ++ as.filterMap fun a => a.event? r s'.document owner.type := by
  induction as generalizing s b with
  | nil =>
    cases binds
    exact ⟨rfl, (List.append_nil _).symm⟩
  | cons a as ih =>
    rw [List.foldl_cons] at binds
    obtain ⟨same, events⟩ := ih (s := (bindAttribute r owner s b a).1)
      (b := (bindAttribute r owner s b a).2) binds
    have same := same.trans (canHandle_bindAttribute s b)
    refine ⟨same, ?_⟩
    have event : a.event? r s.document owner.type = a.event? r s'.document owner.type := by
      rw [Attribute.event?, Attribute.event?, same]
    rw [events, events_bindAttribute, event, List.append_assoc, List.filterMap_cons]
    cases a.event? r s'.document owner.type <;> rfl

/-- **The events of a node are those of its attributes**, in order, at the moment after which they
have been bound. -/
theorem events_bindAttributes {s s' : Session} {as : List Attribute} {bound : Bound}
    (binds : bindAttributes r owner s as = (s', bound)) :
    bound.bindings.events = as.filterMap fun a => a.event? r s'.document owner.type :=
  (events_foldl binds).2

end

/-! ### Moments -/

section
variable {p : Project} {m : Moment} {t : StartTag} {owner : Owner} {bound : Bound}

/-- The events of a tag are those of its attributes when they have been bound. -/
theorem events_of_fits (fits : (Deed.bind t owner bound).Fits p m) : bound.bindings.events =
    t.attributes.filterMap fun a => a.event? p.resolver m.session.document owner.type := by
  obtain ⟨-, as, s, left, binds⟩ := fits
  rw [events_bindAttributes binds]
  refine left.filterMap_eq fun a named => ?_
  rw [Attribute.event?, Attribute.handler?_eq_none named (by decide +kernel)]
  rfl

/-- Whether the page can have a handler is told by its trimmed name. -/
theorem canHandle_congr {r : TypeResolver} {d : Document} {e e' : Excerpt}
    (same : e.trim = e'.trim) : canHandle r d e.value = canHandle r d e'.value := by
  rw [canHandle, canHandle, ← e.value_trim, same, e'.value_trim]

/-- An attribute is bound to its event if the page can have the handler at that moment. -/
theorem mem_events_iff (fits : (Deed.bind t owner bound).Fits p m) {a : Attribute}
    (mem : a ∈ t.attributes) {event : Member} {handler : Excerpt}
    (names : a.handler? p.resolver owner.type = some (event, handler)) :
    ⟨event.name, handler.trim, a.span⟩ ∈ bound.bindings.events ↔
      canHandle p.resolver m.session.document handler.value = true := by
  rw [events_of_fits fits, List.mem_filterMap]
  constructor
  · rintro ⟨a', -, binds⟩
    obtain ⟨⟨event', handler'⟩, -, binds⟩ := Option.bind_eq_some_iff.1 binds
    obtain ⟨can, binds⟩ := Option.ite_none_right_eq_some.1 binds
    have same : handler'.trim = handler.trim :=
      congrArg EventBinding.handler (Option.some.inj binds)
    rwa [← canHandle_congr same]
  · intro can
    refine ⟨a, mem, ?_⟩
    rw [Attribute.event?, names]
    exact if_pos can

namespace Moment

/-- Before a main directive is acted on no base type is known. -/
def Blank (m : Moment) : Prop :=
  m.session.described = false → m.session.document.inherits = none

theorem Blank.after {d : Deed} (h : m.Blank) (fits : d.Fits p m) : (m.after d).Blank := by
  cases d with
  | describe => exact nofun
  | inherit base => exact fun fresh => Bool.noConfusion (fresh.symm.trans fits.1)
  | addImport value =>
    intro fresh
    rw [Moment.after, Deed.change, Session.withDocument, Document.addImport_eq]
    exact h fresh
  | addInclude path text =>
    intro fresh
    rw [Moment.after, Deed.change, Session.withDocument, Document.addInclude_eq]
    exact h fresh
  | _ => exact h

theorem Blank.past {ds : List Deed} (h : m.Blank) (course : Course p m ds) :
    (m.past ds).Blank := by
  induction ds generalizing m with
  | nil => exact h
  | cons d ds ih => exact ih (h.after course.1) course.2

/-- What comes behind the moment decides otherwise whether the page can have the handler.  The base
type has no such method; either it is told behind the moment only, and there is no script, or it is
told before, and all scripts come behind. -/
def Belated (m : Moment) (r : TypeResolver) (finished : Document) (handler : String) : Prop :=
  finished.Lacks r handler ∧
    if m.settled then m.session.document.scripts = [] ∧ finished.scripts ≠ []
    else finished.scripts = []

/-- The page can have the same handlers at the moment and when it is finished, but for those that
are belated. -/
theorem canHandle_iff_not_belated {r : TypeResolver} {finished : Document} {handler : String}
    (known : m.settled = true → finished.inherits = m.session.document.inherits)
    (fresh : m.settled = false → m.session.document.inherits = none)
    (scripts : finished.scripts = [] → m.session.document.scripts = []) :
    (canHandle r m.session.document handler = true ↔ canHandle r finished handler = true) ↔
      ¬ m.Belated r finished handler := by
  rw [← Bool.not_eq_false, ← Bool.not_eq_false, canHandle_eq_false_iff, canHandle_eq_false_iff,
    Belated]
  cases settled : m.settled with
  | true =>
    have same : m.session.document.Lacks r handler ↔ finished.Lacks r handler := by
      rw [Document.Lacks, Document.Lacks, known settled]
    rw [same, if_pos rfl]
    grind
  | false =>
    have none : ¬ m.session.document.Lacks r handler := by
      rintro ⟨page, base, -⟩
      rw [fresh settled] at base
      cases base
    rw [if_neg Bool.false_ne_true]
    grind

end Moment

end

namespace Project

variable {p : Project} {path text : String} {registry : Registry} {body : Body} {s : Session}

variable (p path text registry) in
/-- No base type is known before the first token. -/
theorem blank_beginning : (p.beginning path text registry).Blank := by
  obtain ⟨imports, start⟩ := Session.exists_start p.options (normalPath path) text
    (registry.addDefaults p.options)
  rw [beginning, start]
  exact fun _ => rfl

/-- **Events are bound by what stands before their tag.**  The typed nodes of the tree have been
made by binding the attributes of start tags.  At each of these moments an attribute that names the
handler of an event is bound to the event exactly if the page can have the handler as far as is
known then; and this is what the finished document tells, unless a main directive or a script
behind the tag decides otherwise. -/
theorem events_bound (run : p.run path text registry = (.ok body, s)) :
    (∃ ds, p.History path text registry ds ∧
      Recorded (Met p ⟨normalPath path, text, []⟩) [] ds (piecesOf body.children)) ∧
    ∀ ds, p.History path text registry ds →
      ∀ es t owner bound, es ++ [.bind t owner bound] <+: ds →
        ∀ a ∈ t.attributes, ∀ event handler,
          a.handler? p.resolver owner.type = some (event, handler) →
            let now := (p.beginning path text registry).past es
            let finished := (s.completed body.children).document
            let binds := ⟨event.name, handler.trim, a.span⟩ ∈ bound.bindings.events
            (binds ↔ canHandle p.resolver now.session.document handler.value = true) ∧
              ((binds ↔ canHandle p.resolver finished handler.value = true) ↔
                ¬ now.Belated p.resolver finished handler.value) := by
  refine ⟨?_, fun ds history es t owner bound here a mem event handler names => ?_⟩
  · obtain ⟨ds, history, ends⟩ := p.exists_history path text registry
    exact ⟨ds, history, (ends body s run).2⟩
  have course := Does.course history
  have session : ((p.beginning path text registry).past ds).session = s := by
    rw [history.session_eq, run]
  have grown := course.grows_between ((List.prefix_append es _).trans here) List.prefix_rfl
  obtain ⟨fs, rfl⟩ := here
  obtain ⟨before, fits, -⟩ := course_append.1 (course_append.1 course).1
  have blank := (p.blank_beginning path text registry).past before
  have steady : ((p.beginning path text registry).past es).Steady := fits.1
  have decided := mem_events_iff fits mem names
  refine ⟨decided, ?_⟩
  rw [decided]
  refine Moment.canHandle_iff_not_belated (fun settled => ?_) (fun unsettled => ?_) fun none => ?_
  · have same := (grown.settled settled).2.inherits
    rwa [session] at same
  · exact blank (steady.trans unsettled)
  · have scripts := grown.session.document.scripts
    rw [session] at scripts
    exact List.prefix_nil.1 (none ▸ scripts)

end Project

/-- A page with a script behind a button. -/
def lateScript : String :=
  "<%@ Page %><asp:Button runat=\"server\" OnClick=\"Go\" /><script runat=\"server\"></script>"

/-- Whether the nodes are a leaf and a button with a handler that is kept as an attribute. -/
def isUnboundButton : List Node → Bool
  | [.leaf _, .control h [] []] => h.span.start == ⟨11, 1, 12⟩ &&
    h.type == .plain "WebForms.UI.WebControls" "Button" && h.bindings.events.isEmpty &&
      h.bindings.attributes.any fun a => (a.handler? Project.builtin.resolver h.type).isSome
  | _ => false

/-- The page has a script, and its button keeps the attribute as it is. -/
theorem run_lateScript : ∃ body s l h,
    Project.run .builtin "page.aspx" lateScript .empty = (.ok body, s) ∧
      s.document.scripts ≠ [] ∧ body.children = [.leaf l, .control h [] []] ∧
      h.span.start = ⟨11, 1, 12⟩ ∧ h.type = .plain "WebForms.UI.WebControls" "Button" ∧
      h.bindings.events = [] ∧ ∃ a ∈ h.bindings.attributes, ∃ event handler,
        a.handler? Project.builtin.resolver h.type = some (event, handler) := by
  obtain ⟨body, s, run, check⟩ := exists_of_check
    (Project.run .builtin "page.aspx" lateScript .empty)
    (fun body s => !s.document.scripts.isEmpty && isUnboundButton body.children)
    (by decide +kernel)
  simp only [Bool.and_eq_true, Bool.not_eq_true', List.isEmpty_eq_false_iff] at check
  obtain ⟨scripts, check⟩ := check
  unfold isUnboundButton at check
  split at check
  · next l h children =>
    simp only [Bool.and_eq_true, beq_iff_eq, List.isEmpty_iff, List.any_eq_true,
      Option.isSome_iff_exists] at check
    obtain ⟨⟨⟨place, button⟩, none⟩, a, among, ⟨event, handler⟩, names⟩ := check
    exact ⟨body, s, l, h, run, scripts, children, place, button, none, a, among, event, handler,
      names⟩
  · cases check

/-- Whether the item is no start tag of a button, or one that names a handler. -/
def namesHandler (form : ItemForm) : Bool :=
  match form with
  | .startTag t => t.span.start != ⟨11, 1, 12⟩ || t.attributes.any fun a =>
      (a.handler? Project.builtin.resolver (.plain "WebForms.UI.WebControls" "Button")).any
        fun x => x.1.name == "Click" && x.2.value == "Go"
  | _ => true

/-- The tags of the page that begin where the button does name a handler. -/
theorem handler?_lateScript {item : Item} {t : StartTag}
    (mem : item ∈ itemsOf (tokenize (normalPath "page.aspx") lateScript))
    (tag : item.form = .startTag t) (start : t.span.start = ⟨11, 1, 12⟩) :
    ∃ a ∈ t.attributes, ∃ event handler, a.handler? Project.builtin.resolver
      (.plain "WebForms.UI.WebControls" "Button") = some (event, handler) ∧
        event.name = "Click" ∧ handler.value = "Go" := by
  have check : ∀ item ∈ itemsOf (tokenize (normalPath "page.aspx") lateScript),
      namesHandler item.form = true := by
    decide +kernel
  have checked := check item mem
  rw [tag, namesHandler] at checked
  simp only [start, bne_self_eq_false, Bool.false_or, List.any_eq_true, Option.any_eq_true,
    Bool.and_eq_true, beq_iff_eq] at checked
  obtain ⟨a, among, ⟨event, handler⟩, names, name, value⟩ := checked
  exact ⟨a, among, event, handler, names, name, value⟩

/-- The one typed node of a tree has been made by binding the attributes of a tag. -/
theorem exists_bind_of_piece {ds : List Deed} {file : String} {start : Position} {var : String}
    {type : TypeRef} {bindings : Bindings}
    (one : deedPieces ds = [.typed file start var type bindings]) :
    ∃ es t owner bound, es ++ [.bind t owner bound] <+: ds ∧ t.span.start = start ∧
      owner.type = type ∧ bound.bindings = bindings := by
  have among : Piece.typed file start var type bindings ∈ deedPieces ds := by
    rw [one]
    exact List.mem_singleton_self _
  obtain ⟨d, mem, made⟩ := List.mem_flatMap.1 among
  clear among
  obtain ⟨es, fs, rfl⟩ := List.append_of_mem mem
  cases d with
  | bind t owner bound =>
    have head : Piece.typed t.span.file t.span.start owner.var owner.type bound.bindings ∈
        deedPieces (es ++ .bind t owner bound :: fs) :=
      List.mem_flatMap.2 ⟨_, mem, List.mem_cons_self⟩
    rw [one, List.mem_singleton] at head
    cases head
    exact ⟨es, t, owner, bound, ⟨fs, by simp⟩, rfl, rfl, rfl⟩
  | addTemplate t => exact nomatch List.mem_singleton.1 made
  | _ => exact nomatch made

/-- The handler of the button is belated: it is in the script. -/
theorem Project.events_bound_lateScript : ∃ body s ds es t owner bound a event handler,
    Project.run .builtin "page.aspx" lateScript .empty = (.ok body, s) ∧
      Project.History .builtin "page.aspx" lateScript .empty ds ∧
      es ++ [.bind t owner bound] <+: ds ∧ a ∈ t.attributes ∧
      a.handler? Project.builtin.resolver owner.type = some (event, handler) ∧
      event.name = "Click" ∧ handler.value = "Go" ∧
      ((Project.beginning .builtin "page.aspx" lateScript .empty).past es).Belated
        Project.builtin.resolver (s.completed body.children).document handler.value := by
  obtain ⟨body, s, l, h, run, scripts, children, place, button, none, -⟩ := run_lateScript
  obtain ⟨⟨ds, history, recorded⟩, decided⟩ := events_bound run
  have one : deedPieces ds = [h.piece] := by
    have pieces : piecesOf ([.leaf l] ++ [.control h [] []]) = [h.piece] := by
      rw [piecesOf_append, piecesOf_leaf, piecesOf_control]
      rfl
    have made := recorded.pieces
    rw [children, List.nil_append] at made
    exact List.perm_singleton.1 (made.symm.trans (.of_eq pieces))
  obtain ⟨es, t, owner, bound, here, start, type, bindings⟩ := exists_bind_of_piece one
  have alone : ∀ item ∈ itemsOf (tokenize (normalPath "page.aspx") lateScript),
      item.form.reference? = Option.none := by
    decide +kernel
  have made := here.subset (List.mem_append_right _ List.mem_cons_self)
  obtain ⟨item, mem, tag⟩ := (recorded.tags t owner bound made).of_alone alone
  obtain ⟨a, among, event, handler, names, name, value⟩ :=
    handler?_lateScript mem tag (start.trans place)
  rw [← button, ← type] at names
  obtain ⟨-, late⟩ := decided ds history es t owner bound here a among event handler names
  refine ⟨body, s, ds, es, t, owner, bound, a, event, handler, run, history, here, among, names,
    name, value, not_not.1 fun timely => ?_⟩
  have can : canHandle Project.builtin.resolver (s.completed body.children).document
      handler.value = true :=
    Bool.of_not_eq_false fun cannot => scripts (canHandle_eq_false_iff.1 cannot).2
  have binds := (late.2 timely).2 can
  rw [bindings, none] at binds
  cases binds

/-- The button keeps the attribute as it is, with no event, though the page has a script. -/
theorem event_unbound : ∃ body s,
    Project.run .builtin "page.aspx" lateScript .empty = (.ok body, s) ∧
      (s.completed body.children).document.scripts ≠ [] ∧
      ∃ h ts ns, Node.control h ts ns ∈ (s.completed body.children).document.children ∧
        h.bindings.events = [] ∧ ∃ a ∈ h.bindings.attributes, ∃ event handler,
          a.handler? Project.builtin.resolver h.type = some (event, handler) := by
  obtain ⟨body, s, l, h, run, scripts, children, -, -, none, kept⟩ := run_lateScript
  refine ⟨body, s, run, scripts, h, [], [], ?_, none, kept⟩
  change Node.control h [] [] ∈ body.children
  rw [children]
  exact List.mem_cons_of_mem _ List.mem_cons_self

end ServerMarkup
