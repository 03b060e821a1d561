import LoopNest.Pass.Blocking
import LoopNest.Proofs.Lineage
import LoopNest.Proofs.LinearExtensions
import LoopNest.Proofs.Maps
import LoopNest.Proofs.Returns
import Mathlib.Data.List.Chain

namespace LoopNest

namespace LinExpr

theorem mem_freeSymbols {e : LinExpr} {s : String} :
    s ∈ e.freeSymbols ↔ (e.terms.find? s).isSome :=
  SortedMap.mem_keys_iff

theorem mem_freeSymbols_addTerm {e r : LinExpr} {s t : String} {c : Int64}
    (h : e.addTerm s c = .ok r) (ht : t ∈ r.freeSymbols) : t = s ∨ t ∈ e.freeSymbols := by
  obtain ⟨sum, -, h⟩ := Returns.of_bind (returns_ok h)
  rw [mem_freeSymbols, Returns.of_pure h] at ht
  rw [mem_freeSymbols]
  by_cases hts : t = s
  · exact .inl hts
  · dsimp only at ht
    split at ht
    · rw [SortedMap.find?_erase, if_neg hts] at ht
      exact .inr ht
    · rw [SortedMap.find?_insert, if_neg hts] at ht
      exact .inr ht

/-- A sum has no symbols that its operands do not have. -/
theorem mem_freeSymbols_add {a b r : LinExpr} {t : String} (h : a.add b = .ok r)
    (ht : t ∈ r.freeSymbols) : t ∈ a.freeSymbols ∨ t ∈ b.freeSymbols := by
  obtain ⟨constant, -, h⟩ := Returns.of_bind (returns_ok h)
  refine returns_foldlM (P := fun _ (out : LinExpr) =>
    t ∈ out.freeSymbols → t ∈ a.freeSymbols ∨ t ∈ b.freeSymbols) h .inl ?_ ht
  intro _ term out next hterm hout hnext hin
  rcases mem_freeSymbols_addTerm hnext hin with rfl | hin
  · exact .inr (List.mem_map_of_mem hterm)
  · exact hout hin

theorem freeSymbols_subInt {e r : LinExpr} {n : Int64} (h : e.subInt n = .ok r) :
    r.freeSymbols = e.freeSymbols := by
  obtain ⟨constant, -, h⟩ := Returns.of_bind (returns_ok h)
  rw [Returns.of_pure h]
  rfl

end LinExpr

namespace Dimension

theorem blockOver_cases {s : String} {d e : Dimension} (h : blockOver s d = .ok e) :
    ∃ lower upper, d.min = .ok lower ∧ d.max = .ok upper ∧
      e = block s d lower upper (.symbol (sizeName s)) := by
  obtain ⟨lower, hl, h⟩ := Returns.of_bind (returns_ok h)
  obtain ⟨upper, hu, h⟩ := Returns.of_bind h
  exact ⟨lower, upper, hl, hu, Returns.of_pure h⟩

/-- The dimension runs from an iteration of the outer one to the last point before the next. -/
def Within (d outer : Dimension) : Prop :=
  ∃ name last step, d = block name outer outer.symbol last step ∧
    ∀ t ∈ last.freeSymbols, t = outer.name ∨ t ∈ outer.step.freeSymbols

theorem Within.parent? {d outer : Dimension} (h : d.Within outer) : d.parent? = some outer := by
  obtain ⟨name, last, step, rfl, -⟩ := h
  rfl

theorem blockWithin_cases {s : String} {outer e : Dimension} {size : Option LinExpr}
    (h : blockWithin s outer size = .ok e) :
    e.Within outer ∧ e.name = s ∧ e.step = size.getD (.symbol (sizeName s)) := by
  obtain ⟨next, hn, h⟩ := Returns.of_bind (returns_ok h)
  obtain ⟨last, hl, h⟩ := Returns.of_bind h
  rw [Returns.of_pure h]
  refine ⟨⟨s, last, _, rfl, fun t ht => ?_⟩, rfl, rfl⟩
  rw [LinExpr.freeSymbols_subInt hl] at ht
  rcases LinExpr.mem_freeSymbols_add hn ht with ht | ht
  · exact .inl (List.mem_singleton.mp ht)
  · exact .inr ht

def InStepOf (d outer : Dimension) : Prop := ∃ name size, blockWithin name outer size = .ok d

theorem InStepOf.within {d outer : Dimension} (h : d.InStepOf outer) : d.Within outer := by
  obtain ⟨name, size, h⟩ := h
  exact (blockWithin_cases h).1

end Dimension

namespace Blocking

open Dimension

/-- The name of a block, which tells how often the dimension was blocked before and how deep the
block is nested. -/
def blockName (d : Dimension) (n level : Nat) : String := s!"{d.name}{n}_blk{level}"

/-- The dimensions that one is blocked into. The outermost covers it, and every other one stands
within the one before; the last keeps the name and takes steps of one. -/
structure Hierarchy (b : Blocking) (d : Dimension) (n : Nat) (first : Dimension)
    (rest : List Dimension) (last : Dimension) : Prop where
  outermost : blockOver (blockName d n 0) d = .ok first
  chain : (first :: (rest ++ [last])).IsChain fun p q => q.InStepOf p
  names : (first :: rest).map Dimension.name = (List.range (b.levels - 1 + 1)).map (blockName d n)
  steps : ∀ e ∈ first :: rest, e.step = .symbol (sizeName e.name)
  point : last.name = d.name
  unit : last.step = .int 1

theorem Hierarchy.within {b : Blocking} {d first last : Dimension} {n : Nat} {rest : List Dimension}
    (h : b.Hierarchy d n first rest last) :
    (first :: (rest ++ [last])).IsChain fun p q => q.Within p :=
  h.chain.imp fun _ _ => InStepOf.within

/-- Blocks in one another: each in a step of the one before, with a size of its own. -/
theorem nested_cases {name : Nat → String} {n level : Nat} {outer : Dimension}
    {blocks : List Dimension} (h : nested name n level outer = .ok blocks) :
    (outer :: blocks).IsChain (fun p q => q.InStepOf p) ∧
      blocks.map Dimension.name = (List.range' level n).map name ∧
      ∀ e ∈ blocks, e.step = .symbol (sizeName e.name) := by
  induction n generalizing level outer blocks with
  | zero =>
    cases h
    simp
  | succ n ih =>
    obtain ⟨block, hb, h⟩ := Returns.of_bind (returns_ok h)
    obtain ⟨rest, hr, h⟩ := Returns.of_bind h
    obtain ⟨-, hname, hstep⟩ := blockWithin_cases hb
    obtain ⟨hchain, hnames, hsteps⟩ := ih hr
    rw [Returns.of_pure h]
    refine ⟨List.isChain_cons_cons.mpr ⟨⟨_, _, hb⟩, hchain⟩, ?_,
      List.forall_mem_cons.mpr ⟨?_, hsteps⟩⟩
    · rw [List.map_cons, hname, hnames]
      rfl
    · rw [hstep, hname]
      rfl

theorem hierarchy {b : Blocking} {d last : Dimension} {n : Nat} {blocks : List Dimension}
    (hb : b.blocksOver d n = .ok blocks) (hl : pointsWithin d blocks = .ok last) :
    ∃ first rest, blocks = first :: rest ∧ b.Hierarchy d n first rest last := by
  obtain ⟨first, hf, hb⟩ := Returns.of_bind (returns_ok hb)
  obtain ⟨rest, hr, hb⟩ := Returns.of_bind hb
  obtain ⟨hchain, hnames, hsteps⟩ := nested_cases hr
  have hb := Returns.of_pure hb
  subst hb
  obtain ⟨inner, hinner⟩ : ∃ inner, (first :: rest).getLast? = some inner :=
    Option.isSome_iff_exists.mp (by simp)
  rw [pointsWithin, hinner] at hl
  obtain ⟨-, hname, hstep⟩ := blockWithin_cases hl
  obtain ⟨lower, upper, -, -, hfirst⟩ := blockOver_cases hf
  refine ⟨first, rest, rfl, hf, ?_, ?_, List.forall_mem_cons.mpr ⟨?_, hsteps⟩, hname, hstep⟩
  · rw [← List.cons_append]
    refine List.isChain_append.mpr ⟨hchain, List.isChain_singleton _, fun p hp q hq => ?_⟩
    rw [Option.mem_def.mp hp] at hinner
    rw [Option.mem_def, List.head?_cons] at hq
    cases hinner
    cases hq
    exact ⟨_, _, hl⟩
  · rw [List.map_cons, hnames, hfirst, List.range_eq_range', List.range'_succ]
    rfl
  · rw [hfirst]
    rfl

def IsBlockOver (p q : Dimension) : Prop := q.isBlock ∧ q.parent? = some p

theorem isBlockOver_of_blockOver {s : String} {d e : Dimension} (h : blockOver s d = .ok e) :
    IsBlockOver d e := by
  obtain ⟨lower, upper, -, -, rfl⟩ := blockOver_cases h
  exact ⟨rfl, rfl⟩

theorem isBlockOver_of_within {d outer : Dimension} (h : d.Within outer) :
    IsBlockOver outer d := by
  obtain ⟨name, last, step, rfl, -⟩ := h
  exact ⟨rfl, rfl⟩

theorem Hierarchy.linked {b : Blocking} {d first last : Dimension} {n : Nat}
    {rest : List Dimension} (h : b.Hierarchy d n first rest last) :
    (d :: first :: (rest ++ [last])).IsChain IsBlockOver :=
  List.isChain_cons_cons.mpr
    ⟨isBlockOver_of_blockOver h.outermost, h.within.imp fun _ _ => isBlockOver_of_within⟩

/-- Blocks over one another all come from the dimension under them. -/
theorem isBlock_of_linked {d : Dimension} {l : List Dimension}
    (h : (d :: l).IsChain IsBlockOver) : ∀ e ∈ l, e.isBlock ∧ d ∈ e.lineage := by
  intro e he
  induction l generalizing d with
  | nil => cases he
  | cons first l ih =>
    obtain ⟨⟨hblock, hparent⟩, hchain⟩ := List.isChain_cons_cons.mp h
    have hd := Dimension.mem_lineage_of_parent? hparent d.self_mem_lineage
    rcases List.mem_cons.mp he with rfl | he
    · exact ⟨hblock, hd⟩
    · obtain ⟨hblock, hfirst⟩ := ih hchain he
      exact ⟨hblock, Dimension.lineage_trans hfirst hd⟩

theorem IsBlockOver.root {p q : Dimension} (h : IsBlockOver p q) : q.root = p.root :=
  (Dimension.root_of_mem_lineage
    (Dimension.mem_lineage_of_parent? h.2 p.self_mem_lineage)).symm

theorem IsBlockOver.length_lineage {p q : Dimension} (h : IsBlockOver p q) :
    q.lineage.length = p.lineage.length + 1 := by
  rw [Dimension.lineage_of_parent? h.2, List.length_cons]

/-- Every block over another one comes from one dimension more. -/
theorem lineages_of_linked {d : Dimension} {l : List Dimension}
    (h : (d :: l).IsChain IsBlockOver) :
    l.map (·.lineage.length) = List.range' (d.lineage.length + 1) l.length := by
  induction l generalizing d with
  | nil => rfl
  | cons first l ih =>
    obtain ⟨hfirst, hchain⟩ := List.isChain_cons_cons.mp h
    rw [List.map_cons, ih hchain, hfirst.length_lineage, List.length_cons, List.range'_succ]

def base? (d : Dimension) : Option Dimension := d.lineage.find? fun e => !e.isBlock

theorem base?_of_plain {d : Dimension} (h : d.isBlock = false) : base? d = some d := by
  have hd : d.lineage.head? = some d := by cases d <;> rfl
  obtain ⟨rest, hrest⟩ := List.head?_eq_some_iff.mp hd
  rw [base?, hrest, List.find?_cons_of_pos (by simp [h])]

/-- Blocks over one another are all over the same dimension. -/
theorem base?_of_linked {d : Dimension} {l : List Dimension} (h : (d :: l).IsChain IsBlockOver) :
    ∀ e ∈ l, base? e = base? d := by
  intro e he
  induction l generalizing d with
  | nil => cases he
  | cons first l ih =>
    obtain ⟨⟨hblock, hparent⟩, hchain⟩ := List.isChain_cons_cons.mp h
    have hfirst : base? first = base? d := by
      rw [base?, Dimension.lineage_of_parent? hparent, List.find?_cons_of_neg (by simp [hblock])]
      rfl
    rcases List.mem_cons.mp he with rfl | he
    · exact hfirst
    · exact (ih hchain he).trans hfirst

theorem nodup_of_linked {l : List Dimension} (h : l.IsChain IsBlockOver) : l.Nodup := by
  have hgrow : (l.map fun d => d.lineage.length).IsChain (· < ·) := by
    rw [List.isChain_map]
    exact h.imp fun p q (hpq : IsBlockOver p q) => hpq.length_lineage ▸ Nat.lt_succ_self _
  exact List.Nodup.of_map _ ((List.isChain_iff_pairwise.mp hgrow).imp Nat.ne_of_lt)

end Blocking

/-- An element of a chain, unless it is the first, is linked to one before it. -/
theorem exists_precedes_of_isChain {α : Type} {R : α → α → Prop} {first : α} {l : List α}
    (h : (first :: l).IsChain R) : ∀ q ∈ l, ∃ p, R p q ∧ Precedes (first :: l) p q := by
  induction l generalizing first with
  | nil => simp
  | cons a l ih =>
    obtain ⟨hr, hchain⟩ := List.isChain_cons_cons.mp h
    intro q hq
    rcases List.mem_cons.mp hq with rfl | hq
    · exact ⟨first, hr, Precedes.cons_iff.mpr (.inl ⟨rfl, List.mem_cons_self⟩)⟩
    · obtain ⟨p, hp, hpre⟩ := ih hchain q hq
      exact ⟨p, hp, Precedes.cons_iff.mpr (.inr hpre)⟩

end LoopNest
