/-
# Variables are pairwise different

Every node, template and part of a script gets a variable of its own.  Three things keep them apart
while a tree grows (`Apart`): the labels so far have different variables, none of these extends a
variable that a slot has still to give out, and each slot extends a variable that the slots around
it have given out.  The nodes that attributes make extend the variable of their node as well, but by
the name of a property and not by a number; this is where it is needed that collections are not
named like numbers or with underscores.  The resolver has to be lawful for this, since a walk to a
node that is there asks for a member of any kind, and makes a node for it.

The class of a template has the variable of the template in its name, so classes are different, too.
-/

import ServerMarkup.Proofs.Binding.Walks
import ServerMarkup.Proofs.Naming.Parts
import ServerMarkup.Proofs.Tree.Growth

namespace ServerMarkup

/-- The name of a collection can be a part of a variable, and is no number. -/
def PartName (name : String) : Prop :=
  '_' ∉ name.toList ∧ ∀ n : Nat, name ≠ toString n

/-! ### The nodes that attributes make -/

/-- The labels are those of collections below `var` for some properties, and of all in these. -/
structure ChainedLabels (var : String) (properties : List String) (ls : List Label) : Prop where
  within : ∀ l ∈ ls, ∃ name ∈ properties, PartName name ∧ Extends (var ++ "_" ++ name) l.var
  nodup : (ls.map Label.var).Nodup

theorem Chained.labels {var : String} {ns : List Node} (inTemplate : Bool)
    (h : Chained PartName var ns) :
    ChainedLabels var (propertiesOf ns) (labelsAll inTemplate ns) := by
  induction h with
  | nil =>
    rw [labelsAll_nil]
    exact ⟨List.forall_mem_nil _, List.nodup_nil⟩
  | @cons var h below rest hvar name other inner more ihBelow ihRest =>
    have properties : propertiesOf (.collection h [] below :: rest) =
        h.property :: propertiesOf rest := rfl
    have labels : labelsAll inTemplate (.collection h [] below :: rest) =
        ⟨h.var, .plain, inTemplate⟩ ::
          (labelsAll inTemplate below ++ labelsAll inTemplate rest) := by
      simp [labelsAll_cons, Node.labels]
    have within : ∀ l ∈ labelsAll inTemplate below, Extends h.var l.var := by
      intro l mem
      obtain ⟨name, -, -, part⟩ := ihBelow.within l mem
      exact (Extends.part _ _).trans part
    have apart : ∀ l ∈ labelsAll inTemplate rest, ¬ Extends h.var l.var := by
      intro l mem here
      obtain ⟨p, listed, name', there⟩ := ihRest.within l mem
      rw [hvar] at here
      exact other (part_unique name.1 name'.1 here there ▸ listed)
    rw [labels, properties]
    refine ⟨fun l mem => ?_, ?_⟩
    · obtain rfl | mem | mem := by simpa only [List.mem_cons, List.mem_append] using mem
      · exact ⟨h.property, List.mem_cons_self, name, hvar ▸ .refl _⟩
      · exact ⟨h.property, List.mem_cons_self, name, hvar ▸ within l mem⟩
      · obtain ⟨p, listed, there⟩ := ihRest.within l mem
        exact ⟨p, List.mem_cons_of_mem _ listed, there⟩
    · rw [List.map_cons, List.map_append, List.nodup_cons, List.nodup_append]
      refine ⟨fun mem => ?_, ihBelow.nodup, ihRest.nodup, ?_⟩
      · rw [← List.map_append] at mem
        obtain ⟨l, mem, same⟩ := List.mem_map.1 mem
        obtain mem | mem := List.mem_append.1 mem
        · obtain ⟨p, -, -, part⟩ := ihBelow.within l mem
          rw [same] at part
          exact Extends.not_part _ _ part
        · exact apart l mem (same ▸ .refl _)
      · simp only [List.forall_mem_map]
        intro l mem l' mem' same
        exact apart l' mem' (same ▸ within l mem)

/-! ### Slots -/

/-- The variables are different, and stay so with those that the slots give out. -/
structure Apart (slots : List Slot) (vars : List String) : Prop where
  nodup : vars.Nodup
  /-- Nothing extends a variable that is still to be given out. -/
  unused : ∀ slot ∈ slots, ∀ n, slot.next ≤ n → ∀ v ∈ vars,
    ¬ Extends (slot.var ++ "_" ++ toString n) v
  /-- A slot extends what the slots around it have given out. -/
  inside : slots.Pairwise fun inner outer =>
    ∃ n < outer.next, Extends (outer.var ++ "_" ++ toString n) inner.var

namespace Apart

variable {slot : Slot} {slots : List Slot} {vars new : List String}

theorem perm {vars' : List String} (same : vars'.Perm vars) (h : Apart slots vars) :
    Apart slots vars' where
  nodup := same.nodup_iff.2 h.nodup
  unused := fun slot mem n hn v mem' => h.unused slot mem n hn v (same.mem_iff.1 mem')
  inside := h.inside

theorem close (h : Apart (slot :: slots) vars) : Apart slots vars where
  nodup := h.nodup
  unused := fun s mem => h.unused s (List.mem_cons_of_mem _ mem)
  inside := (List.pairwise_cons.1 h.inside).2

/-- A slot gives out a variable, which all that comes of it extends. -/
theorem give (h : Apart (slot :: slots) vars) (nodup : new.Nodup)
    (within : ∀ v ∈ new, Extends slot.fresh v)
    (free : ∀ v ∈ new, ∀ n : Nat, ¬ Extends (slot.fresh ++ "_" ++ toString n) v) :
    Apart (⟨slot.fresh, 0⟩ :: slot.bumped :: slots) (vars ++ new) := by
  obtain ⟨around, others⟩ := List.pairwise_cons.1 h.inside
  have old : ∀ v ∈ vars, ¬ Extends slot.fresh v :=
    h.unused slot List.mem_cons_self slot.next le_rfl
  have inSlot : Extends slot.var slot.fresh := .part _ _
  refine ⟨?_, ?_, ?_⟩
  · refine List.nodup_append.2 ⟨h.nodup, nodup, fun v mem v' mem' same => ?_⟩
    exact old v mem (same ▸ within v' mem')
  · intro s mem n hn v mem'
    obtain mem' | mem' := List.mem_append.1 mem'
    · obtain rfl | rfl | mem := by simpa only [List.mem_cons] using mem
      · exact fun there => old v mem' ((Extends.part _ _).trans there)
      · have later : slot.next + 1 ≤ n := hn
        exact h.unused slot List.mem_cons_self n (by omega) v mem'
      · exact h.unused s (List.mem_cons_of_mem _ mem) n hn v mem'
    · intro there
      obtain rfl | rfl | mem := by simpa only [List.mem_cons] using mem
      · exact free v mem' n there
      · have same : n = slot.next := number_unique there (within v mem')
        have later : slot.next + 1 ≤ n := hn
        omega
      · obtain ⟨m, hm, here⟩ := around s mem
        have same : m = n :=
          number_unique ((here.trans inSlot).trans (within v mem')) there
        omega
  · refine List.pairwise_cons.2 ⟨?_, List.pairwise_cons.2 ⟨around, others⟩⟩
    intro s mem
    obtain rfl | mem := List.mem_cons.1 mem
    · exact ⟨slot.next, Nat.lt_succ_self _, .refl _⟩
    · obtain ⟨m, hm, here⟩ := around s mem
      exact ⟨m, hm, here.trans inSlot⟩

end Apart

/-! ### Stages -/

/-- The variables of a stage are apart, and templates have their classes from them. -/
structure Stage.Named (st : Stage) : Prop where
  apart : Apart st.slots (st.held.map Label.var)
  classes : ∀ l ∈ st.held, ∀ c, l.className? = some c → c = "Template_" ++ l.var

namespace Stage.Named

variable {r : TypeResolver} {met : StartTag → Prop} {st st' : Stage}

theorem start (var : String) (next : Nat) (fields : List DeclaredField) (ds : List Diagnostic) :
    Named ⟨[⟨var, next⟩], [], fields, ds⟩ where
  apart := ⟨List.nodup_nil, fun _ _ _ _ => List.forall_mem_nil _, List.pairwise_singleton _ _⟩
  classes := List.forall_mem_nil _

section
variable (lawful : r.Lawful) (names : ∀ type name m, r.memberOf type name = some m →
  m.isCollection = true → PartName m.name)
include lawful names

/-- A step of growth keeps variables apart. -/
theorem step (h : Named st) (step : Step r met st st') : Named st' := by
  cases step with
  | note same kept =>
    exact ⟨h.apart.perm (same.map _), fun l mem => h.classes l (same.mem_iff.1 mem)⟩
  | close => exact ⟨h.apart.close, h.classes⟩
  | @take slot slots held fields ds new taken =>
    have vars : new.map Label.var = [] ∨ new.map Label.var = [slot.fresh] := by
      cases taken with
      | nothing => exact .inl rfl
      | plain | template => exact .inr rfl
    have own : ∀ v ∈ new.map Label.var, v = slot.fresh := by
      obtain e | e := vars <;> rw [e] <;> simp
    refine ⟨?_, fun l mem c hc => ?_⟩
    · rw [List.map_append]
      refine h.apart.give ?_ (fun v mem => own v mem ▸ .refl _) fun v mem n => ?_
      · obtain e | e := vars <;> rw [e] <;> simp
      · rw [own v mem]
        exact Extends.not_part _ _
    · obtain mem | mem := List.mem_append.1 mem
      · exact h.classes l mem c hc
      · cases taken with
        | nothing => cases mem
        | plain t =>
          rw [List.mem_singleton.1 mem] at hc
          cases hc
        | template t =>
          rw [List.mem_singleton.1 mem] at hc ⊢
          cases hc
          rfl
  | @bind slot slots held owner s s' as bound t var tag ids binds =>
    have below : Chained PartName owner.var (bindAttributes r owner s as).2.children :=
      (typed_bindAttributes s lawful as).chained names
        (chained_bindAttributes r owner s as)
    have chained := below.labels owner.inTemplate
    rw [binds, var] at chained
    have label : (owner.label bound).var = slot.fresh := var
    refine ⟨?_, fun l mem c hc => ?_⟩
    · rw [List.map_append]
      refine h.apart.give ?_ ?_ ?_
      · rw [Owner.labels, List.map_cons, List.nodup_cons]
        refine ⟨fun mem => ?_, chained.nodup⟩
        obtain ⟨l, mem, same⟩ := List.mem_map.1 mem
        obtain ⟨p, -, -, part⟩ := chained.within l mem
        rw [same, label] at part
        exact Extends.not_part _ _ part
      · simp only [Owner.labels, List.map_cons, List.forall_mem_cons, List.forall_mem_map]
        refine ⟨label ▸ .refl _, fun l mem => ?_⟩
        obtain ⟨p, -, -, part⟩ := chained.within l mem
        exact (Extends.part _ _).trans part
      · simp only [Owner.labels, List.map_cons, List.forall_mem_cons, List.forall_mem_map]
        refine ⟨fun n => label ▸ Extends.not_part _ _, fun l mem n there => ?_⟩
        obtain ⟨p, -, name, part⟩ := chained.within l mem
        exact name.2 n (part_unique name.1 (underscore_notMem_toString n) part there)
    · obtain mem | mem := List.mem_append.1 mem
      · exact h.classes l mem c hc
      · obtain rfl | mem := List.mem_cons.1 mem
        · unfold Owner.label Label.className? at hc
          split at hc
          · next role =>
            dsimp only at role
            split at role <;> cases role
          · cases hc
        · have plain := plain_bindAttributes r owner s as owner.inTemplate l (by rwa [binds])
          rw [Label.className?, plain] at hc
          cases hc

end

/-- The classes of templates are different. -/
theorem nodup_classes (h : Named st) : (st.held.filterMap Label.className?).Nodup := by
  have vars : st.held.Pairwise fun l l' => l.var ≠ l'.var := List.pairwise_map.1 h.apart.nodup
  refine List.pairwise_filterMap.2 (vars.imp_of_mem ?_)
  intro l l' mem mem' different c hc c' hc' same
  have eq := (h.classes l mem c hc).symm.trans (same.trans (h.classes l' mem' c' hc'))
  have letters : "Template_".toList ++ l.var.toList = "Template_".toList ++ l'.var.toList := by
    rw [← String.toList_append, ← String.toList_append, eq]
  exact different (String.toList_inj.1 (List.append_cancel_left letters))

end Stage.Named

/-- **Variables are pairwise different.**  In the tree and the scripts of a page, included files and
the nodes that attributes make among them, no variable comes twice, and no class of a template does,
if collections are not named with underscores or like numbers, and the resolver is lawful. -/
theorem variables_distinct {p : Project} {path text : String} {registry : Registry} {body : Body}
    {s : Session} (lawful : p.resolver.Lawful)
    (names : ∀ type name m, p.resolver.memberOf type name = some m → m.isCollection = true →
      '_' ∉ m.name.toList ∧ ∀ n : Nat, m.name ≠ toString n)
    (run : p.run path text registry = (.ok body, s)) :
    let labels := (s.completed body.children).document.labels
    (labels.map Label.var).Nodup ∧ (labels.filterMap Label.className?).Nodup := by
  have named := (Project.leads_run run).preserves (Stage.Named.start _ _ _ _)
    fun _ _ h => h.step lawful names
  exact ⟨named.apart.nodup, named.nodup_classes⟩

/-! ### Catalogs -/

/-- What a catalog says of a member stands in one of its definitions. -/
theorem Catalog.exists_of_memberOf {c : Catalog} {type : TypeRef} {name : String} {m : Member}
    (h : c.memberOf type name = some m) : ∃ d ∈ c.types, m ∈ d.members := by
  have listed (n : Nat) (type : TypeRef) : ∀ d ∈ c.ancestorsUpTo n type, d ∈ c.types := by
    induction n generalizing type with
    | zero => exact List.forall_mem_nil _
    | succ n ih =>
      rw [ancestorsUpTo]
      split
      · exact List.forall_mem_nil _
      · next d hd =>
        refine List.forall_mem_cons.2 ⟨List.mem_of_find?_eq_some hd, ?_⟩
        split
        · exact List.forall_mem_nil _
        · exact ih _
  obtain ⟨d, mem, found⟩ := List.exists_of_findSome?_eq_some h
  exact ⟨d, listed _ _ d mem, List.mem_of_find?_eq_some found⟩

/-- A name with a character that is no digit is no number. -/
theorem partName_of_letter {name : String} (own : '_' ∉ name.toList)
    (letter : ∃ c ∈ name.toList, c.isDigit = false) : PartName name := by
  refine ⟨own, fun n same => ?_⟩
  obtain ⟨c, mem, other⟩ := letter
  rw [same, Nat.toString_eq_repr, Nat.toList_repr] at mem
  rw [Nat.isDigit_of_mem_toDigits (by omega) le_rfl mem] at other
  cases other

/-- A project with the types and a file. -/
def Project.grid : Project :=
  ⟨gridTypes.resolver, Files.empty.insert "a.inc" "b", .standard⟩

/-- A page with a node of every kind, an included file and a server script.  Two attributes of the
grid lead through one collection. -/
def gridPage : String :=
  "<asp:Grid runat=server rows-cells-text=x rows-text=y><Rows/><Head>a</Head></asp:Grid>" ++
    "<%--#include file=\"a.inc\"--%><script runat=server>c</script>"

/-- What stands on the page and in the file that it includes has variables of its own. -/
theorem variables_distinct_grid : gridTypes.resolver.Lawful ∧ ∃ body s,
    Project.run .grid "page.aspx" gridPage .empty = (.ok body, s) ∧
      let labels := (s.completed body.children).document.labels
      s.document.includes.length = 1 ∧ labels.length = 8 ∧ (labels.map Label.var).Nodup ∧
        (labels.filterMap Label.className?).Nodup := by
  obtain ⟨body, s, run, sizes⟩ := exists_of_check
    (Project.run .grid "page.aspx" gridPage .empty)
    (fun body s => s.document.includes.length == 1 &&
      (s.completed body.children).document.labels.length == 8)
    (by decide +kernel)
  rw [Bool.and_eq_true, beq_iff_eq, beq_iff_eq] at sizes
  refine ⟨gridTypes.lawful_resolver, body, s, run, sizes.1, sizes.2,
    variables_distinct gridTypes.lawful_resolver (fun type name m found collection => ?_) run⟩
  obtain ⟨d, mem, member⟩ := Catalog.exists_of_memberOf found
  have all : (gridTypes.types.all fun d => d.members.all fun m => !m.isCollection ||
      !m.name.toList.contains '_' && m.name.toList.any (!·.isDigit)) = true := by decide +kernel
  have fits := List.all_eq_true.1 (List.all_eq_true.1 all d mem) m member
  simp only [collection, Bool.not_true, Bool.false_or, Bool.and_eq_true, Bool.not_eq_true',
    List.contains_eq_mem, decide_eq_false_iff_not, List.any_eq_true] at fits
  exact partName_of_letter fits.1 fits.2

end ServerMarkup
