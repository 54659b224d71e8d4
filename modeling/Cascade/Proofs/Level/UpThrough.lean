/-! # Lists up to the first entry of a kind -/
namespace Cascade

variable {α β : Type}

/-- The entries up to and including the first with the property, all if there is none. -/
def upThrough (p : α → Bool) : List α → List α
  | [] => []
  | a :: rest => if p a then [a] else a :: upThrough p rest

theorem mem_of_mem_upThrough {p : α → Bool} {a : α} {l : List α} (h : a ∈ upThrough p l) :
    a ∈ l := by
  induction l with
  | nil => exact h
  | cons b rest ih =>
    unfold upThrough at h
    split at h
    · exact List.mem_cons.2 (Or.inl (List.mem_singleton.1 h))
    · rcases List.mem_cons.1 h with rfl | h
      · exact List.mem_cons_self
      · exact List.mem_cons_of_mem b (ih h)

theorem upThrough_append (p : α → Bool) (a b : List α) :
    upThrough p (a ++ b) = if a.any p then upThrough p a else a ++ upThrough p b := by
  induction a with
  | nil => rfl
  | cons x rest ih =>
    rw [List.cons_append, upThrough, upThrough, ih, List.any_cons]
    cases p x with
    | true => rfl
    | false => cases rest.any p <;> rfl

theorem upThrough_of_any_eq_false {p : α → Bool} {l : List α} (h : l.any p = false) :
    upThrough p l = l := by
  have ha := upThrough_append p l []
  rw [List.append_nil, h, if_neg (by simp)] at ha
  rw [ha, upThrough, List.append_nil]

theorem upThrough_map (p : β → Bool) (f : α → β) (l : List α) :
    upThrough p (l.map f) = (upThrough (p ∘ f) l).map f := by
  induction l with
  | nil => rfl
  | cons a rest ih =>
    rw [List.map_cons, upThrough, upThrough, ih, Function.comp_apply]
    cases p (f a) <;> rfl

end Cascade
