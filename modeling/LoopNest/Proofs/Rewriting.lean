import Mathlib.Data.List.Forall2
import Mathlib.Logic.Relation

namespace LoopNest

variable {α β : Type} {R R' : List α → List α → Prop}

inductive Within (R : List α → List α → Prop) : List α → List α → Prop
  | part {xs ys : List α} (before after : List α) (h : R xs ys) :
    Within R (before ++ xs ++ after) (before ++ ys ++ after)

def Rewrites (R : List α → List α → Prop) : List α → List α → Prop :=
  Relation.ReflTransGen (Within R)

namespace Within

theorem append_left (zs : List α) (h : Within R xs ys) : Within R (zs ++ xs) (zs ++ ys) := by
  cases h with
  | part before after h => simpa only [List.append_assoc] using part (zs ++ before) after h

theorem append_right (zs : List α) (h : Within R xs ys) : Within R (xs ++ zs) (ys ++ zs) := by
  cases h with
  | part before after h => simpa only [List.append_assoc] using part before (after ++ zs) h

end Within

namespace Rewrites

theorem refl (xs : List α) : Rewrites R xs xs := Relation.ReflTransGen.refl

theorem trans (h : Rewrites R xs ys) (h' : Rewrites R ys zs) : Rewrites R xs zs :=
  Relation.ReflTransGen.trans h h'

theorem of (h : R xs ys) : Rewrites R xs ys := by
  have hw : Within R ([] ++ xs ++ []) ([] ++ ys ++ []) := .part [] [] h
  simp only [List.nil_append, List.append_nil] at hw
  exact .single hw

theorem append_left (zs : List α) (h : Rewrites R xs ys) : Rewrites R (zs ++ xs) (zs ++ ys) :=
  Relation.ReflTransGen.lift (zs ++ ·) (fun _ _ => Within.append_left zs) _ _ h

theorem append_right (zs : List α) (h : Rewrites R xs ys) : Rewrites R (xs ++ zs) (ys ++ zs) :=
  Relation.ReflTransGen.lift (· ++ zs) (fun _ _ => Within.append_right zs) _ _ h

theorem append (h : Rewrites R xs ys) (h' : Rewrites R xs' ys') :
    Rewrites R (xs ++ xs') (ys ++ ys') :=
  (h.append_right xs').trans (h'.append_left ys)

theorem flatMap {f : β → List α} {g : γ → List α} {bs : List β} {cs : List γ}
    (h : List.Forall₂ (fun b c => Rewrites R (f b) (g c)) bs cs) :
    Rewrites R (bs.flatMap f) (cs.flatMap g) := by
  induction h with
  | nil => exact refl []
  | cons h _ ih =>
    rw [List.flatMap_cons, List.flatMap_cons]
    exact h.append ih

theorem mono (hR : ∀ xs ys, R xs ys → Rewrites R' xs ys) (h : Rewrites R xs ys) :
    Rewrites R' xs ys := by
  induction h with
  | refl => exact refl _
  | tail _ hw ih =>
    cases hw with
    | part before after h => exact ih.trans (((hR _ _ h).append_left before).append_right after)

/-- A property that every rewriting of a part keeps is kept by a whole run. -/
theorem keeps {P : List α → Prop} (h : Rewrites R xs ys) (hxs : P xs)
    (hstep : ∀ before after as bs, R as bs → P (before ++ as ++ after) →
      P (before ++ bs ++ after)) : P ys := by
  induction h with
  | refl => exact hxs
  | tail _ hw ih =>
    cases hw with
    | part before after h => exact hstep before after _ _ h ih

/-- What every rewriting keeps true of the elements it replaces stays true of all elements. -/
theorem forall_mem {P : α → Prop} (h : Rewrites R xs ys)
    (hR : ∀ as bs, R as bs → (∀ a ∈ as, P a) → ∀ b ∈ bs, P b) (hxs : ∀ x ∈ xs, P x) :
    ∀ y ∈ ys, P y := by
  refine h.keeps (P := fun l => ∀ x ∈ l, P x) hxs fun before after as bs hr hall => ?_
  simp only [List.forall_mem_append] at hall ⊢
  exact ⟨⟨hall.1.1, hR as bs hr hall.1.2⟩, hall.2⟩

/-- A list whose parts are all beyond rewriting stays as it is. -/
theorem eq_of_stuck (h : Rewrites R xs ys)
    (hstuck : ∀ before after as bs, xs = before ++ as ++ after → ¬R as bs) : ys = xs := by
  cases Relation.ReflTransGen.cases_head h with
  | inl he => exact he.symm
  | inr hw =>
    obtain ⟨_, hw, _⟩ := hw
    cases hw with
    | part before after hR => exact absurd hR (hstuck before after _ _ rfl)

end Rewrites

theorem forall₂_trans {γ : Type} {P : α → β → Prop} {Q : β → γ → Prop} {S : α → γ → Prop}
    (hS : ∀ a b c, P a b → Q b c → S a c) {xs : List α} {ys : List β} {zs : List γ}
    (h : List.Forall₂ P xs ys) (h' : List.Forall₂ Q ys zs) : List.Forall₂ S xs zs := by
  induction h generalizing zs with
  | nil =>
    cases h'
    exact .nil
  | cons hab _ ih =>
    cases h' with
    | cons hbc h' => exact .cons (hS _ _ _ hab hbc) (ih h')

/-- Rewritings of single elements are steps of each element on its own. -/
theorem Rewrites.pointwise {S : α → α → Prop} (h : Rewrites R xs ys)
    (hR : ∀ as bs, R as bs → ∃ a b, as = [a] ∧ bs = [b] ∧ S a b) :
    List.Forall₂ (Relation.ReflTransGen S) xs ys := by
  have hsame : ∀ l : List α, List.Forall₂ (Relation.ReflTransGen S) l l := fun l =>
    List.forall₂_same.mpr fun _ _ => .refl
  induction h with
  | refl => exact hsame _
  | tail _ hw ih =>
    cases hw with
    | part before after h =>
      obtain ⟨a, b, rfl, rfl, hs⟩ := hR _ _ h
      refine forall₂_trans (fun _ _ _ => .trans) ih ?_
      exact List.rel_append (List.rel_append (hsame before) (.cons (.single hs) .nil)) (hsame after)

/-- The second list has the elements of the first in an order in which none has come before one that
it is tied to and stood behind. Every element is taken together with the place it had. -/
def Reorders (tied : α → α → Prop) (xs ys : List α) : Prop :=
  ∃ zs : List (α × Nat), zs.Perm xs.zipIdx ∧ zs.map Prod.fst = ys ∧
    zs.Pairwise fun s t => tied s.1 t.1 → s.2 < t.2

namespace Reorders

variable {tied : α → α → Prop}

theorem refl (xs : List α) : Reorders tied xs xs := by
  refine ⟨xs.zipIdx, .refl _, List.zipIdx_map_fst 0 xs, ?_⟩
  have hplaces : (xs.zipIdx.map Prod.snd).Pairwise (· < ·) := by
    rw [List.zipIdx_map_snd]
    exact List.pairwise_lt_range'
  refine (List.pairwise_map.mp hplaces).imp ?_
  intro s t hlt _
  exact hlt

/-- Neighbouring stretches that are not tied may change places. -/
theorem exchange (h : Reorders tied xs (before ++ (as ++ bs) ++ after))
    (hfree : ∀ b ∈ bs, ∀ a ∈ as, ¬tied b a) : Reorders tied xs (before ++ (bs ++ as) ++ after) := by
  obtain ⟨zs, hperm, hfst, horder⟩ := h
  obtain ⟨ys, zafter, rfl, hys, rfl⟩ := List.map_eq_append_iff.mp hfst
  obtain ⟨zbefore, zmid, rfl, rfl, hmid⟩ := List.map_eq_append_iff.mp hys
  obtain ⟨zas, zbs, rfl, rfl, rfl⟩ := List.map_eq_append_iff.mp hmid
  refine ⟨zbefore ++ (zbs ++ zas) ++ zafter, ?_, by simp, ?_⟩
  · exact .trans (((List.perm_append_comm).append_left _).append_right _) hperm
  · have hswap : ∀ b ∈ zbs, ∀ a ∈ zas, ¬tied b.1 a.1 := fun b hb a ha =>
      hfree b.1 (List.mem_map_of_mem hb) a.1 (List.mem_map_of_mem ha)
    simp only [List.pairwise_append, List.mem_append] at horder ⊢
    obtain ⟨⟨hbefore, ⟨has, hbs, -⟩, hinto⟩, hafter, hout⟩ := horder
    refine ⟨⟨hbefore, ⟨hbs, has, fun b hb a ha ht => absurd ht (hswap b hb a ha)⟩,
      fun s hs t ht => hinto s hs t ht.symm⟩, hafter, fun s hs t ht => hout s ?_ t ht⟩
    exact hs.imp_right Or.symm

end Reorders
end LoopNest
