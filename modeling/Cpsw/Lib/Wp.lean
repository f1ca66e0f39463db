import Cpsw.Lib.Throw

namespace Cpsw.Lib.Throw

variable {ε σ α β : Type} {x : Throw ε σ α} {s t : σ}
variable {Q Q' : α → σ → Prop} {E E' : ε → σ → Prop}

/-- From `s`, what `x` returns satisfies `Q` and what it throws satisfies `E`. -/
def wp (x : Throw ε σ α) (s : σ) (Q : α → σ → Prop) (E : ε → σ → Prop) : Prop :=
  match exec x s with
  | (.ok a, t) => Q a t
  | (.error e, t) => E e t

theorem wp_bind {f : α → Throw ε σ β} {Q : β → σ → Prop} :
    wp (x >>= f) s Q E ↔ wp x s (fun a t ↦ wp (f a) t Q E) E := by
  rw [wp, exec_bind, wp]
  rcases exec x s with ⟨_ | a, t⟩ <;> rfl

@[simp] theorem wp_pure {a : α} : wp (pure a : Throw ε σ α) s Q E ↔ Q a s := Iff.rfl

@[simp] theorem wp_throw {e : ε} : wp (throw e : Throw ε σ α) s Q E ↔ E e s := Iff.rfl

@[simp] theorem wp_modify {f : σ → σ} {Q : PUnit → σ → Prop} :
    wp (modify f : Throw ε σ PUnit) s Q E ↔ Q ⟨⟩ (f s) := Iff.rfl

theorem wp_get_bind {f : σ → Throw ε σ β} {Q : β → σ → Prop} :
    wp ((get : Throw ε σ σ) >>= f) s Q E ↔ wp (f s) s Q E := wp_bind

theorem wp.mono (h : wp x s Q E) (hQ : ∀ a t, Q a t → Q' a t) (hE : ∀ e t, E e t → E' e t) :
    wp x s Q' E' := by
  rcases hx : exec x s with ⟨_ | a, t⟩ <;> rw [wp, hx] at h ⊢
  · exact hE _ _ h
  · exact hQ _ _ h

/-- What two proofs say of one computation. -/
theorem wp.and (h : wp x s Q E) (h' : wp x s Q' E') :
    wp x s (fun a t ↦ Q a t ∧ Q' a t) (fun e t ↦ E e t ∧ E' e t) := by
  rcases hx : exec x s with ⟨_ | a, t⟩ <;> rw [wp, hx] at h h' ⊢
  · exact ⟨h, h'⟩
  · exact ⟨h, h'⟩

theorem wp.ok (h : wp x s Q E) {a : α} (hx : exec x s = (.ok a, t)) : Q a t := by
  rw [wp, hx] at h
  exact h

theorem wp.error (h : wp x s Q E) {e : ε} (hx : exec x s = (.error e, t)) : E e t := by
  rw [wp, hx] at h
  exact h

/-- What each turn of a loop keeps, the loop keeps. -/
theorem wp_forM {l : List α} {f : α → Throw ε σ PUnit} {I : σ → Prop}
    (hf : ∀ a ∈ l, ∀ s, I s → wp (f a) s (fun _ t ↦ I t) E) (hs : I s) :
    wp (l.forM f) s (fun _ t ↦ I t) E := by
  induction l generalizing s with
  | nil => exact hs
  | cons a l ih =>
    change wp (f a >>= fun _ ↦ l.forM f) s _ E
    apply wp_bind.2
    apply (hf a List.mem_cons_self s hs).mono _ fun _ _ ↦ id
    intro _ t ht
    exact ih (fun b hb ↦ hf b (List.mem_cons_of_mem _ hb)) ht

theorem wp_foldlM {l : List α} {f : β → α → Throw ε σ β} {I : σ → Prop} {b : β}
    (hf : ∀ a ∈ l, ∀ b s, I s → wp (f b a) s (fun _ t ↦ I t) E) (hs : I s) :
    wp (l.foldlM f b) s (fun _ t ↦ I t) E := by
  induction l generalizing s b with
  | nil => exact hs
  | cons a l ih =>
    rw [List.foldlM_cons]
    apply wp_bind.2
    apply (hf a List.mem_cons_self b s hs).mono _ fun _ _ ↦ id
    intro _ t ht
    exact ih (fun a ha ↦ hf a (List.mem_cons_of_mem _ ha)) ht

end Cpsw.Lib.Throw
