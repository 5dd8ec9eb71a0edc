/-
# How far a text reaches

Two scans over a text that say how many characters come before something.  `reach stop cs` counts
the characters before the first place where `stop` holds of the index and of the text from there
on, or all of them; `distance? mark cs` counts the characters before the first occurrence of
`mark`.
-/

namespace ServerMarkup

/-- The index of the first place, counting from `i`, where `stop` holds, or of the end. -/
def reachFrom (stop : Nat → List Char → Bool) (i : Nat) : List Char → Nat
  | [] => i
  | c :: cs => if stop i (c :: cs) then i else reachFrom stop (i + 1) cs

/-- How many characters come before the first place where `stop` holds. -/
def reach (stop : Nat → List Char → Bool) (cs : List Char) : Nat :=
  reachFrom stop 0 cs

/-- The index of the first occurrence of the mark, counting from `i`. -/
def distanceFrom? (mark : List Char) (i : Nat) : List Char → Option Nat
  | [] => none
  | c :: cs => if mark.isPrefixOf (c :: cs) then some i else distanceFrom? mark (i + 1) cs

/-- How many characters come before the first occurrence of the mark. -/
def distance? (mark : List Char) (cs : List Char) : Option Nat :=
  distanceFrom? mark 0 cs

theorem reachFrom_le (stop : Nat → List Char → Bool) (i : Nat) (cs : List Char) :
    reachFrom stop i cs ≤ i + cs.length := by
  induction cs generalizing i with
  | nil => simp [reachFrom]
  | cons c cs ih =>
    unfold reachFrom
    split
    · omega
    · have := ih (i + 1)
      simp only [List.length_cons]
      omega

/-- A reach ends within the text. -/
theorem reach_le (stop : Nat → List Char → Bool) (cs : List Char) : reach stop cs ≤ cs.length := by
  have := reachFrom_le stop 0 cs
  simpa [reach] using this

theorem le_reachFrom (stop : Nat → List Char → Bool) (i : Nat) (cs : List Char) :
    i ≤ reachFrom stop i cs := by
  induction cs generalizing i with
  | nil => exact Nat.le_refl _
  | cons c cs ih =>
    unfold reachFrom
    split
    · exact Nat.le_refl _
    · exact Nat.le_trans (Nat.le_succ i) (ih (i + 1))

theorem stop_reachFrom {stop : Nat → List Char → Bool} {i : Nat} {cs : List Char}
    (h : reachFrom stop i cs < i + cs.length) :
    stop (reachFrom stop i cs) (cs.drop (reachFrom stop i cs - i)) = true := by
  induction cs generalizing i with
  | nil => simp [reachFrom] at h
  | cons c cs ih =>
    unfold reachFrom at h ⊢
    split
    · next hs => simpa using hs
    · next hs =>
      rw [if_neg hs, List.length_cons] at h
      have hle := le_reachFrom stop (i + 1) cs
      have := ih (i := i + 1) (by omega)
      rwa [show reachFrom stop (i + 1) cs - i = reachFrom stop (i + 1) cs - (i + 1) + 1 by omega,
        List.drop_succ_cons]

/-- A reach that ends before the text does ends where `stop` holds. -/
theorem stop_reach {stop : Nat → List Char → Bool} {cs : List Char}
    (h : reach stop cs < cs.length) : stop (reach stop cs) (cs.drop (reach stop cs)) = true := by
  have := @stop_reachFrom stop 0 cs (by simpa [reach] using h)
  simpa [reach] using this

theorem length_le_of_distanceFrom? {mark : List Char} {i n : Nat} {cs : List Char}
    (h : distanceFrom? mark i cs = some n) : i ≤ n ∧ n - i + mark.length ≤ cs.length := by
  induction cs generalizing i with
  | nil => simp [distanceFrom?] at h
  | cons c cs ih =>
    unfold distanceFrom? at h
    split at h
    · next hp =>
      obtain rfl := Option.some.inj h
      have := (List.isPrefixOf_iff_prefix.1 hp).length_le
      omega
    · have := ih h
      simp only [List.length_cons]
      omega

/-- A mark that is found lies within the text. -/
theorem length_le_of_distance? {mark cs : List Char} {n : Nat} (h : distance? mark cs = some n) :
    n + mark.length ≤ cs.length := by
  have := length_le_of_distanceFrom? h
  omega

theorem prefix_drop_of_distanceFrom? {mark : List Char} {i n : Nat} {cs : List Char}
    (h : distanceFrom? mark i cs = some n) : mark <+: cs.drop (n - i) := by
  induction cs generalizing i with
  | nil => simp [distanceFrom?] at h
  | cons c cs ih =>
    unfold distanceFrom? at h
    split at h
    · next hp =>
      obtain rfl := Option.some.inj h
      simpa using List.isPrefixOf_iff_prefix.1 hp
    · have hle := (length_le_of_distanceFrom? h).1
      rw [show n - i = n - (i + 1) + 1 by omega, List.drop_succ_cons]
      exact ih h

/-- A mark stands where it is found. -/
theorem prefix_drop_of_distance? {mark cs : List Char} {n : Nat} (h : distance? mark cs = some n) :
    mark <+: cs.drop n := by
  simpa using prefix_drop_of_distanceFrom? h

end ServerMarkup
