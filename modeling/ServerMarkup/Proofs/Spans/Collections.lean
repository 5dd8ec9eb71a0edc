/-
# Where the collections of attributes stand

A hyphenated attribute makes the collections that its name leads through, unless they are there, and
each comes with the span of the attribute.  So the spans of such collections side by side, at any
depth, are those of some attributes of the tag, in their order (`Derived`, `derived_bind`).  What
stands in one of them need not lie in its span: a later attribute may have put it there.
-/

import ServerMarkup.Proofs.Parse.Steps
import ServerMarkup.Proofs.Spans.Containers

namespace ServerMarkup

variable {done : List Span} {span : Span} {ns : List Node}

/-- The container is a collection with one of the spans, and what stands in it has some of them, in
their order. -/
structure Container.Derived (done : List Span) (c : Container) : Prop where
  kind : c.kind = .collection
  span : c.span ∈ done
  nodes : c.nodes.Sublist done
  templates : c.templates = []

/-- The nodes are collections that have come of attributes with the spans. -/
structure Derived (done : List Span) (ns : List Node) : Prop where
  top : (ns.map Node.span).Sublist done
  below : Contained (Container.Derived done) ns

theorem derived_nil : Derived [] [] :=
  ⟨List.Sublist.refl _, throughout_nil⟩

/-- Another attribute may come. -/
theorem Container.Derived.concat {c : Container} (h : c.Derived done) (span : Span) :
    c.Derived (done ++ [span]) :=
  ⟨h.kind, List.mem_append_left _ h.span, h.nodes.trans (List.sublist_append_left _ _),
    h.templates⟩

theorem Derived.concat (h : Derived done ns) (span : Span) : Derived (done ++ [span]) ns :=
  ⟨h.top.trans (List.sublist_append_left _ _), h.below.mono fun _ hc => hc.concat span⟩

/-! ### One attribute -/

section
variable {change : CollectionHead → List Node → CollectionHead × List Node}
  (fresh : CollectionHead) (keeps : ∀ head ns, (change head ns).1.span = head.span)
include keeps

/-- The collections side by side are those that were there, or one more at their end. -/
theorem spans_changeCollection (ns : List Node) :
    (changeCollection change fresh ns).map Node.span = ns.map Node.span ∨
      (changeCollection change fresh ns).map Node.span = ns.map Node.span ++ [fresh.span] := by
  fun_induction changeCollection change fresh ns with
  | case1 head ns hc =>
    have same : head.span = fresh.span := congrArg (·.1.span) hc ▸ keeps fresh []
    exact .inr (by simp [Node.span, same])
  | case2 head ts ns rest _ head' ns' hc =>
    have same : head'.span = head.span := congrArg (·.1.span) hc ▸ keeps head ns
    exact .inl (by simp [Node.span, same])
  | case3 head ts ns rest _ ih => exact ih.imp (by simp [·]) (by simp [·])
  | case4 n rest _ ih => exact ih.imp (by simp [·]) (by simp [·])

/-- A change that derives what it is given derives the collections that it is done to. -/
theorem derived_changeCollection (here : fresh.span = span)
    (derives : ∀ head ns, Derived done ns → Derived (done ++ [span]) (change head ns).2)
    (h : Derived done ns) :
    Derived (done ++ [span]) (changeCollection change fresh ns) := by
  refine ⟨?_, ?_⟩
  · obtain same | more := spans_changeCollection fresh keeps ns
    · rw [same]
      exact h.top.trans (List.sublist_append_left _ _)
    · rw [more, here]
      exact h.top.append (List.Sublist.refl _)
  have changed {head : CollectionHead} {ns : List Node} (of : head.span ∈ done ++ [span])
      (derived : Derived (done ++ [span]) (change head ns).2) :
      Contained (Container.Derived (done ++ [span]))
        [.collection (change head ns).1 [] (change head ns).2] :=
    contained_collection.2 ⟨⟨rfl, (keeps head ns).symm ▸ of, derived.top, rfl⟩,
      templatesThroughout_nil, derived.below⟩
  refine throughout_changeCollection (fun _ hc => hc.concat span) ?_ ?_ h.below
  · exact changed (by simp [here]) (derives fresh [] ⟨List.nil_sublist _, throughout_nil⟩)
  · intro head ts ns first
    obtain ⟨own, -, inner⟩ := contained_collection.1 first
    obtain rfl : ts = [] := List.map_eq_nil_iff.1 own.templates
    exact changed (List.mem_append_left _ own.span) (derives head ns ⟨own.nodes, inner⟩)

end

/-- A walk makes collections with its span only. -/
theorem derived_bindAlong (r : TypeResolver) (change : TypeRef → Bindings → Bindings)
    (names : List String) (type : TypeRef) (var : String) (b : Bindings) (h : Derived done ns) :
    Derived (done ++ [span]) (bindAlong r change span names type var b ns).2 := by
  induction names generalizing type var b ns with
  | nil => exact h.concat span
  | cons name names ih =>
    rw [bindAlong]
    split
    · exact h.concat span
    · exact derived_changeCollection _ (fun _ _ => rfl) rfl (fun head ns hn => ih _ _ _ hn) h

theorem derived_bindAttribute (r : TypeResolver) (owner : Owner) (s : Session) {b : Bound}
    (a : Attribute) (h : Derived done b.children) :
    Derived (done ++ [a.span]) (bindAttribute r owner s b a).2.children := by
  unfold bindAttribute
  split
  · exact h.concat _
  · exact h.concat _
  · exact h.concat _
  · exact derived_bindAlong _ _ _ _ _ _ h

/-! ### All attributes -/

theorem derived_foldl (r : TypeResolver) (owner : Owner) (as : List Attribute)
    (x : Session × Bound) (h : Derived done x.2.children) :
    Derived (done ++ as.map Attribute.span)
      (as.foldl (fun x a => bindAttribute r owner x.1 x.2 a) x).2.children := by
  induction as generalizing done x with
  | nil => rwa [List.map_nil, List.append_nil]
  | cons a as ih =>
    have more := ih (bindAttribute r owner x.1 x.2 a) (derived_bindAttribute _ _ _ a h)
    rwa [List.append_assoc] at more

/-- **The collections that attributes make stand where these do.** -/
theorem derived_bind (p : Project) (owner : Owner) (as : List Attribute) :
    Gives (Builder.bind p owner as) fun bound =>
      Derived (as.map Attribute.span) bound.children := by
  intro s bound s' run
  obtain rfl : (bindAttributes p.resolver owner s as).2 = bound :=
    congrArg Prod.snd (Builder.bindAttributes_of_run run)
  exact derived_foldl p.resolver owner as (s, .start) derived_nil

end ServerMarkup
