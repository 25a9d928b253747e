import AnalyticsEngine.EmbeddingPipeline.Version

/-!
# The names of the output files (scripts/embeddings_from_dump.py)

A name carries the weights it tells of to six digits, and it can be read back to them: two files beside
one `--out` share a name exactly if it tells the same of both (`outPath_eq_iff`).
-/

namespace AnalyticsEngine.DumpGraph
open Library EmbeddingPipeline

/- `--out`, cut into its stem and its suffix. -/
structure OutName where
  stem : String
  suffix : String

def outPathForConfig (out : OutName) (w0 selfWeight : Float64) (multiple : Bool) : String :=
  let stem := if multiple then out.stem ++ ".w0-" ++ formatG w0 else out.stem
  let stem := if selfWeight.isZero then stem else stem ++ ".self-" ++ formatG selfWeight
  if stem = out.stem then out.stem ++ out.suffix else stem ++ out.suffix

/-- What a name tells of its weights. -/
def outKey (w0 selfWeight : Float64) (multiple : Bool) : Option Rounded × Option Rounded :=
  (if multiple then some w0.sixDigits else none,
    if selfWeight.isZero then none else some selfWeight.sixDigits)

def selfTag : Option Rounded → List Char
  | none => []
  | some selfWeight => '.' :: 's' :: 'e' :: 'l' :: 'f' :: '-' :: selfWeight.text

def weightTag : Option Rounded → List Char
  | none => []
  | some w0 => '.' :: 'w' :: '0' :: '-' :: w0.text

theorem outPath_toList (out : OutName) (w0 selfWeight : Float64) (multiple : Bool) :
    (outPathForConfig out w0 selfWeight multiple).toList =
      out.stem.toList ++ (weightTag (outKey w0 selfWeight multiple).1 ++
        (selfTag (outKey w0 selfWeight multiple).2 ++ out.suffix.toList)) := by
  have hname : ∀ stem : String,
      (if stem = out.stem then out.stem ++ out.suffix else stem ++ out.suffix) = stem ++ out.suffix := by
    intro stem
    split_ifs with hstem
    · rw [hstem]
    · rfl
  unfold outPathForConfig outKey formatG
  rw [hname]
  cases multiple <;> cases selfWeight.isZero <;> simp [weightTag, selfTag]

theorem not_mem_text (x : Rounded) : 's' ∉ x.text := by
  have hunsigned : 's' ∉ x.unsigned := by
    cases x with
    | nan => decide
    | infinite negative => exact of_decide_eq_true rfl
    | zero negative => exact of_decide_eq_true rfl
    | digits negative number =>
      intro hs
      rcases (number.text_isNumeral (by decide)).2 's' hs with hdigit | hother
      · exact absurd hdigit (by decide)
      · exact absurd hother (by decide)
  intro hs
  unfold Rounded.text at hs
  split_ifs at hs
  · rcases List.mem_cons.mp hs with hdash | hs
    · exact absurd hdash (by decide)
    · exact hunsigned hs
  · exact hunsigned hs

theorem selfTag_inj {v v' : Option Rounded} (h : selfTag v = selfTag v') : v = v' := by
  cases v with
  | none =>
    cases v' with
    | none => rfl
    | some y => cases h
  | some x =>
    cases v' with
    | none => cases h
    | some y =>
      unfold selfTag at h
      simp only [List.cons.injEq, true_and] at h
      rw [Rounded.text_inj h]

/-- The tag of the self weight begins with a letter that no number has. -/
theorem text_selfTag_inj {w w' : Rounded} {v v' : Option Rounded}
    (h : w.text ++ selfTag v = w'.text ++ selfTag v') : w = w' ∧ v = v' := by
  have hpoint : ∀ x : Rounded, 's' ∉ x.text ++ ['.'] := by
    intro x hs
    rcases List.mem_append.mp hs with hs | hs
    · exact not_mem_text x hs
    · exact absurd hs (by decide)
  have halone : ∀ {x y z : Rounded}, x.text ≠ y.text ++ selfTag (some z) := by
    intro x y z heq
    refine not_mem_text x ?_
    rw [heq]
    exact List.mem_append_right _ (List.mem_cons_of_mem _ List.mem_cons_self)
  cases v with
  | none =>
    cases v' with
    | none =>
      simp only [selfTag, List.append_nil] at h
      exact ⟨Rounded.text_inj h, rfl⟩
    | some y =>
      simp only [selfTag, List.append_nil] at h
      exact absurd h halone
  | some x =>
    cases v' with
    | none =>
      rw [show selfTag none = [] from rfl, List.append_nil] at h
      exact absurd h.symm halone
    | some y =>
      have hsplit : ∀ a b : Rounded, a.text ++ selfTag (some b) =
          (a.text ++ ['.']) ++ 's' :: 'e' :: 'l' :: 'f' :: '-' :: b.text := by
        intro a b
        rw [List.append_assoc]
        rfl
      rw [hsplit, hsplit] at h
      obtain ⟨hw, hv⟩ := name_cancel (hpoint w) (hpoint w') (Or.inr ⟨_, rfl⟩) (Or.inr ⟨_, rfl⟩) h
      simp only [List.cons.injEq, true_and] at hv
      exact ⟨Rounded.text_inj (List.append_cancel_right hw), congrArg some (Rounded.text_inj hv)⟩

theorem tags_inj {a b : Option Rounded × Option Rounded}
    (h : weightTag a.1 ++ selfTag a.2 = weightTag b.1 ++ selfTag b.2) : a = b := by
  obtain ⟨w, v⟩ := a
  obtain ⟨w', v'⟩ := b
  cases w with
  | none =>
    cases w' with
    | none => exact congrArg (Prod.mk none) (selfTag_inj h)
    | some y => cases v <;> simp [weightTag, selfTag] at h
  | some x =>
    cases w' with
    | none => cases v' <;> simp [weightTag, selfTag] at h
    | some y =>
      simp only [weightTag, List.cons_append, List.cons.injEq, true_and] at h
      obtain ⟨rfl, rfl⟩ := text_selfTag_inj h
      rfl

/-- Two files beside one `--out` share a name exactly if it tells the same of their weights. -/
theorem outPath_eq_iff (out : OutName) (w0 w0' selfWeight selfWeight' : Float64)
    (multiple multiple' : Bool) :
    outPathForConfig out w0 selfWeight multiple = outPathForConfig out w0' selfWeight' multiple' ↔
      outKey w0 selfWeight multiple = outKey w0' selfWeight' multiple' := by
  rw [← String.toList_inj, outPath_toList, outPath_toList, ← List.append_assoc (weightTag _),
    ← List.append_assoc (weightTag _)]
  constructor
  · intro h
    exact tags_inj (List.append_cancel_right (List.append_cancel_left h))
  · intro h
    rw [h]

end AnalyticsEngine.DumpGraph
