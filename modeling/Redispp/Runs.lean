import Mathlib.Data.List.DropRight

/-!
# Runs

Runs of a labelled transition relation.  An invariant is proved of one step
and holds of every state that a run reaches; it may speak of the labels so
far.  The second part is about the labels alone: what they write, each knowing
those before it, and which of them came after a point in the past.
-/

namespace Runs

variable {S L B : Type} {step : S → L → S → Prop}

inductive Run (step : S → L → S → Prop) (s : S) : List L → S → Prop
  | nil : Run step s [] s
  | snoc {mid last : S} {labels : List L} {label : L} :
      Run step s labels mid → step mid label last →
      Run step s (labels ++ [label]) last

theorem Run.invariant (inv : S → Prop) {s last : S} {labels : List L}
    (h : Run step s labels last) (hs : inv s)
    (hstep : ∀ s label last, inv s → step s label last → inv last) :
    inv last := by
  induction h with
  | nil => exact hs
  | snoc _ hlast ih => exact hstep _ _ _ ih hlast

theorem Run.history_invariant (inv : List L → S → Prop) {s last : S}
    {labels : List L} (h : Run step s labels last) (hs : inv [] s)
    (hstep : ∀ past s label last, inv past s → step s label last →
      inv (past ++ [label]) last) :
    inv labels last := by
  induction h with
  | nil => exact hs
  | snoc _ hlast ih => exact hstep _ _ _ _ ih hlast

theorem Run.of_snoc {s last : S} {labels : List L} {label : L}
    (h : Run step s (labels ++ [label]) last) :
    ∃ mid, Run step s labels mid ∧ step mid label last := by
  generalize hlabels : labels ++ [label] = all at h
  cases h with
  | nil => simp at hlabels
  | snoc hrun hlast =>
      obtain ⟨rfl, hlabel⟩ := List.append_inj' hlabels rfl
      obtain rfl := List.singleton_injective hlabel
      exact ⟨_, hrun, hlast⟩

theorem Run.split {s last : S} {front back : List L}
    (h : Run step s (front ++ back) last) :
    ∃ mid, Run step s front mid ∧ Run step mid back last := by
  induction back using List.reverseRecOn generalizing last with
  | nil =>
      rw [List.append_nil] at h
      exact ⟨last, h, .nil⟩
  | append_singleton back label ih =>
      rw [← List.append_assoc] at h
      obtain ⟨before, hrun, hlast⟩ := h.of_snoc
      obtain ⟨mid, hfront, hback⟩ := ih hrun
      exact ⟨mid, hfront, .snoc hback hlast⟩

theorem Run.of_nil {s last : S} (h : Run step s [] last) : last = s := by
  generalize hlabels : ([] : List L) = labels at h
  cases h with
  | nil => rfl
  | snoc _ _ => simp at hlabels

theorem Run.cons {s mid last : S} {label : L} {labels : List L}
    (hstep : step s label mid) (h : Run step mid labels last) :
    Run step s (label :: labels) last := by
  induction h with
  | nil => exact .snoc .nil hstep
  | snoc _ hlast ih => exact .snoc ih hlast

theorem Run.of_cons {s last : S} {label : L} {labels : List L}
    (h : Run step s (label :: labels) last) :
    ∃ mid, step s label mid ∧ Run step mid labels last := by
  have hsplit : Run step s ([label] ++ labels) last := h
  obtain ⟨mid, hfirst, hrest⟩ := hsplit.split
  have hsnoc : Run step s ([] ++ [label]) mid := hfirst
  obtain ⟨start, hnil, hstep⟩ := hsnoc.of_snoc
  rw [hnil.of_nil] at hstep
  exact ⟨mid, hstep, hrest⟩

theorem run_nil_iff {s last : S} : Run step s [] last ↔ last = s :=
  ⟨Run.of_nil, fun h => h ▸ .nil⟩

theorem run_cons_iff {s last : S} {label : L} {labels : List L} :
    Run step s (label :: labels) last ↔
      ∃ mid, step s label mid ∧ Run step mid labels last :=
  ⟨Run.of_cons, fun ⟨_, hstep, hrest⟩ => hrest.cons hstep⟩

/-! ## Histories -/

/-- What the labels write, each on the history in front of it. -/
def written (emit : List L → L → List B) (past : List L) : List L → List B
  | [] => []
  | label :: rest => emit past label ++ written emit (past ++ [label]) rest

theorem written_append (emit : List L → L → List B)
    (past front back : List L) :
    written emit past (front ++ back) =
      written emit past front ++ written emit (past ++ front) back := by
  induction front generalizing past with
  | nil => simp [written]
  | cons label front ih => simp [written, ih]

theorem written_concat (emit : List L → L → List B) (past : List L)
    (label : L) :
    written emit [] (past ++ [label]) =
      written emit [] past ++ emit past label := by
  simp [written_append, written]

/-- Another past makes no difference if no label looks back into it. -/
theorem written_congr {emit : List L → L → List B} {past other : List L}
    {labels : List L}
    (h : ∀ front label back, labels = front ++ label :: back →
      emit (past ++ front) label = emit (other ++ front) label) :
    written emit past labels = written emit other labels := by
  induction labels generalizing past other with
  | nil => rfl
  | cons label rest ih =>
      have hlabel := h [] label rest rfl
      have hrest : written emit (past ++ [label]) rest =
          written emit (other ++ [label]) rest := by
        apply ih
        rintro front next back rfl
        simpa using h (label :: front) next back rfl
      rw [List.append_nil, List.append_nil] at hlabel
      rw [written, written, hlabel, hrest]

/-- The labels after the last one that is marked. -/
def since (mark : L → Bool) (past : List L) : List L :=
  past.rtakeWhile fun label => !mark label

theorem since_concat (mark : L → Bool) (past : List L) (label : L) :
    since mark (past ++ [label]) =
      if mark label then [] else since mark past ++ [label] := by
  unfold since
  rw [List.rtakeWhile_concat]
  cases mark label <;> simp

theorem since_append_of_marked {mark : L → Bool} {label : L}
    {back : List L} (hlabel : label ∈ back) (hmark : mark label = true)
    (front : List L) : since mark (front ++ back) = since mark back := by
  induction back using List.reverseRecOn with
  | nil => simp at hlabel
  | append_singleton back last ih =>
      rw [← List.append_assoc, since_concat, since_concat]
      by_cases hlast : mark last = true
      · rw [if_pos hlast, if_pos hlast]
      · rw [if_neg hlast, if_neg hlast, ih ?_]
        rcases List.mem_append.mp hlabel with hback | hsame
        · exact hback
        · rw [List.mem_singleton.mp hsame] at hmark
          exact absurd hmark hlast

end Runs
