import LoopNest.Tree.Render
import Mathlib.Data.List.Chain

namespace LoopNest

namespace CodeWriter

variable {w : CodeWriter} {s : String}

def append (w : CodeWriter) (s : String) : CodeWriter := { w with output := w.output ++ s }

theorem append_append (s t : String) : (w.append s).append t = w.append (s ++ t) := by
  simp [append, String.append_assoc]

theorem write_append (w : CodeWriter) (s t : String) : w.write (s ++ t) = (w.write s).write t := by
  simp [write, String.toList_append]

theorem writeLine_append (w : CodeWriter) (s t : String) :
    (w.write s).writeLine t = w.writeLine (s ++ t) := by
  rw [writeLine, writeLine, write_append]

theorem append_singleton (w : CodeWriter) (c : Char) :
    w.append (String.singleton c) = { w with output := w.output.push c } := by
  rw [append, String.push_eq_append]

theorem foldl_writeChar {cs : List Char} (h : w.atLineStart = false) (hcs : '\n' ∉ cs) :
    cs.foldl writeChar w = w.append (String.ofList cs) := by
  induction cs generalizing w with
  | nil => simp [append]
  | cons c cs ih =>
    obtain ⟨hc, hcs⟩ := not_or.mp (mt List.mem_cons.mpr hcs)
    have hone : w.writeChar c = w.append (String.singleton c) := by
      rw [append_singleton, writeChar, if_neg (Ne.symm hc), if_neg (by simp [h])]
    rw [List.foldl_cons, hone, ih (w := w.append _) h hcs, append_append, ← String.ofList_cons]

/-- A line that is not empty is put behind the margin. -/
theorem writeLine_eq (h : w.atLineStart = true) (hs : s ≠ "") (hbreak : '\n' ∉ s.toList) :
    w.writeLine s = w.append (w.margin ++ s ++ "\n") := by
  obtain ⟨c, cs, hcs⟩ := List.exists_cons_of_ne_nil (mt String.toList_eq_nil_iff.mp hs)
  rw [hcs] at hbreak
  obtain ⟨hc, hbreak⟩ := not_or.mp (mt List.mem_cons.mpr hbreak)
  have hone : w.writeChar c =
      { w.append (w.margin ++ String.singleton c) with atLineStart := false } := by
    rw [writeChar, if_neg (Ne.symm hc), if_pos h, append, String.push_eq_append,
      String.append_assoc]
  have hline : w.write s = { w.append (w.margin ++ s) with atLineStart := false } := by
    have hs : String.singleton c ++ String.ofList cs = s := by
      rw [← String.ofList_cons, ← hcs, String.ofList_toList]
    rw [write, hcs, List.foldl_cons, hone, foldl_writeChar rfl hbreak, append, append,
      String.append_assoc, String.append_assoc, hs]
    rfl
  have hend : ∀ w : CodeWriter, w.write "\n" = { w with
      output := w.output.push '\n', atLineStart := true } := fun _ => rfl
  rw [writeLine, hline, hend, append, append, String.push_eq_append, String.append_assoc, ← h]
  rfl

end CodeWriter

inductive Frame where
  | loop (head : LoopHead)
  | routine (name : String) (parameters : List String)

namespace Frame

def header : Frame → String
  | loop head => head.text
  | routine name parameters =>
    "void " ++ name ++ "(" ++ ", ".intercalate (parameters.map ("const int " ++ ·)) ++ ")"

def isParallel : Frame → Bool
  | loop head => head.isParallel
  | routine _ _ => false

end Frame

namespace Line

inductive Content where
  | mark
  | opening (frame : Frame)
  | statement (text : String)
  | closing (frame : Frame)

@[simp] def Content.text : Content → String
  | mark => Node.parallelMark
  | opening frame => frame.header ++ " \x7b"
  | statement text => text
  | closing _ => "\x7d"

end Line

/-- A line of code with the loops and routines around it, outermost first. -/
structure Line where
  outer : List Frame
  content : Line.Content

namespace Line

def text (l : Line) : String := String.join (List.replicate l.outer.length "  ") ++ l.content.text

/-- Whether the line is there for something in the tree, and neither a mark nor the end of a
block. -/
def isItem (l : Line) : Bool :=
  match l.content with
  | .opening _ | .statement _ => true
  | .mark | .closing _ => false

def IsMark (l : Line) : Prop := l.content.text = Node.parallelMark

def OpensOutermost (l : Line) : Prop :=
  ∃ head, l.content = .opening (.loop head) ∧ head.isParallel ∧ ∀ f ∈ l.outer, f.isParallel = false

def print (lines : List Line) : String := String.join (lines.map fun l => l.text ++ "\n")

theorem print_append (ls ms : List Line) : print (ls ++ ms) = print ls ++ print ms := by
  simp [print, String.join_append]

/-- Read in order, every line stands inside exactly what is open, only the block opened last is
closed, and in the end every block is closed. -/
def Nested (opened : List Frame) : List Line → Prop
  | [] => opened = []
  | l :: rest =>
    match l.content with
    | .opening frame => l.outer = opened ∧ Nested (opened ++ [frame]) rest
    | .closing frame => opened = l.outer ++ [frame] ∧ Nested l.outer rest
    | .mark | .statement _ => l.outer = opened ∧ Nested opened rest

/-- A line is a mark exactly if the next one opens an outermost parallel loop. -/
structure Marked (lines : List Line) : Prop where
  head : ∀ l ∈ lines.head?, ¬l.OpensOutermost
  chain : lines.IsChain fun l next => l.IsMark ↔ next.OpensOutermost
  last : ∀ l ∈ lines.getLast?, ¬l.IsMark

theorem Marked.nil : Marked [] := ⟨by simp, .nil, by simp⟩

theorem Marked.single {l : Line} (hl : ¬l.IsMark) (ho : ¬l.OpensOutermost) : Marked [l] :=
  ⟨by simpa using ho, .singleton l, by simpa using hl⟩

theorem Marked.append {ls ms : List Line} (h : Marked ls) (h' : Marked ms) : Marked (ls ++ ms) := by
  cases ls with
  | nil => exact h'
  | cons l ls =>
    cases ms with
    | nil => rwa [List.append_nil]
    | cons m ms =>
      refine ⟨by simpa using h.head, List.isChain_append.mpr ⟨h.chain, h'.chain, ?_⟩, ?_⟩
      · intro x hx y hy
        exact iff_of_false (h.last x hx) (h'.head y hy)
      · rw [List.getLast?_append_of_ne_nil _ (List.cons_ne_nil m ms)]
        exact h'.last

end Line

/-- The lines of a block around others. A parallel loop with no parallel loop around it is
marked. -/
def Frame.enclose (frame : Frame) (outer : List Frame) (inner : List Line) : List Line :=
  let mark := if frame.isParallel && !outer.any isParallel then [⟨outer, .mark⟩] else []
  mark ++ ⟨outer, .opening frame⟩ :: (inner ++ [⟨outer, .closing frame⟩])

namespace Node

def callText (c : Call) : String :=
  c.name ++ "(" ++ ", ".intercalate (c.args.map LinExpr.text) ++ ");"

mutual

/-- The loops, routines, equations and calls in reading order, each as a line inside what is around
it. -/
def itemsUnder (outer : List Frame) : Node → List Line
  | loop head body => ⟨outer, .opening (.loop head)⟩ :: itemsUnderList (outer ++ [.loop head]) body
  | bundle equations => equations.map fun e => ⟨outer, .statement (e.text ++ ";")⟩
  | call c => [⟨outer, .statement (callText c)⟩]
  | list nodes => itemsUnderList outer nodes
  | routine name parameters body =>
    ⟨outer, .opening (.routine name parameters)⟩ ::
      itemsUnderList (outer ++ [.routine name parameters]) body

def itemsUnderList (outer : List Frame) : List Node → List Line
  | [] => []
  | n :: ns => n.itemsUnder outer ++ itemsUnderList outer ns

end

def items (n : Node) : List Line := n.itemsUnder []

mutual

def linesUnder (outer : List Frame) : Node → List Line
  | loop head body => (Frame.loop head).enclose outer (linesUnderList (outer ++ [.loop head]) body)
  | bundle equations => equations.map fun e => ⟨outer, .statement (e.text ++ ";")⟩
  | call c => [⟨outer, .statement (callText c)⟩]
  | list nodes => linesUnderList outer nodes
  | routine name parameters body =>
    (Frame.routine name parameters).enclose outer
      (linesUnderList (outer ++ [.routine name parameters]) body)

def linesUnderList (outer : List Frame) : List Node → List Line
  | [] => []
  | n :: ns => n.linesUnder outer ++ linesUnderList outer ns

end

mutual

def words : Node → List String
  | loop head body =>
    [head.dim.name, head.lower.text, head.upper.text, head.step.text] ++ wordsList body
  | bundle equations => equations.map Equation.text
  | call c => c.name :: c.args.map LinExpr.text
  | list nodes => wordsList nodes
  | routine name parameters body => name :: parameters ++ wordsList body

def wordsList : List Node → List String
  | [] => []
  | n :: ns => n.words ++ wordsList ns

end

end Node

namespace Line

variable {outer : List Frame} {items lines : List Line}

theorem not_isMark {l : Line} {c : Char} (hl : l.content.text.toList.getLast? = some c)
    (hc : c ≠ 'r') : ¬l.IsMark := by
  intro hmark
  rw [IsMark] at hmark
  rw [hmark] at hl
  exact hc (Option.some.inj hl).symm

theorem getLast?_toList_append {s t : String} {c : Char} (h : t.toList.getLast? = some c) :
    (s ++ t).toList.getLast? = some c := by
  rw [String.toList_append, List.getLast?_append, h]
  rfl

theorem opening_not_isMark (outer : List Frame) (frame : Frame) :
    ¬(⟨outer, .opening frame⟩ : Line).IsMark :=
  not_isMark (c := '\x7b') (getLast?_toList_append (by decide)) (by decide)

theorem closing_not_isMark (outer : List Frame) (frame : Frame) :
    ¬(⟨outer, .closing frame⟩ : Line).IsMark :=
  not_isMark (c := '\x7d') (by simp) (by decide)

/-- Lines that say what the items say, inside what is open, with marks where they belong. -/
structure LaysOut (outer : List Frame) (items lines : List Line) : Prop where
  items : lines.filter isItem = items
  nested : ∀ rest, Nested outer (lines ++ rest) ↔ Nested outer rest
  marked : Marked lines

namespace LaysOut

theorem nil (outer : List Frame) : LaysOut outer [] [] := ⟨rfl, fun _ => .rfl, .nil⟩

theorem append {items' lines' : List Line} (h : LaysOut outer items lines)
    (h' : LaysOut outer items' lines') : LaysOut outer (items ++ items') (lines ++ lines') where
  items := by rw [List.filter_append, h.items, h'.items]
  nested rest := by rw [List.append_assoc, h.nested, h'.nested]
  marked := h.marked.append h'.marked

theorem statement (outer : List Frame) {s : String} (hs : s.toList.getLast? = some ';') :
    LaysOut outer [⟨outer, .statement s⟩] [⟨outer, .statement s⟩] where
  items := rfl
  nested rest := and_iff_right rfl
  marked := by
    refine .single (not_isMark hs (by decide)) ?_
    rintro ⟨head, h, -⟩
    cases h

/-- A block around lines that are laid out inside it. -/
theorem enclose {frame : Frame} {inner : List Line} (h : LaysOut (outer ++ [frame]) items inner) :
    LaysOut outer (⟨outer, .opening frame⟩ :: items) (frame.enclose outer inner) where
  items := by
    have hinner : (inner ++ [(⟨outer, .closing frame⟩ : Line)]).filter isItem = items := by
      rw [List.filter_append, h.items]
      exact List.append_nil items
    unfold Frame.enclose
    dsimp only
    split <;> exact congrArg _ hinner
  nested rest := by
    have hinner : Nested (outer ++ [frame]) ((inner ++ [⟨outer, .closing frame⟩]) ++ rest) ↔
        Nested outer rest := by
      rw [List.append_assoc, h.nested]
      exact and_iff_right rfl
    have hblock : Nested outer (⟨outer, .opening frame⟩ ::
        ((inner ++ [⟨outer, .closing frame⟩]) ++ rest)) ↔ Nested outer rest :=
      (and_iff_right rfl).trans hinner
    unfold Frame.enclose
    dsimp only
    split
    · exact (and_iff_right rfl).trans hblock
    · exact hblock
  marked := by
    have hclosing : Marked [⟨outer, .closing frame⟩] := by
      refine .single (closing_not_isMark outer frame) ?_
      rintro ⟨head, hc, -⟩
      cases hc
    unfold Frame.enclose
    dsimp only
    rw [List.append_cons]
    refine Marked.append ?_ (h.marked.append hclosing)
    split
    · rename_i hmarked
      obtain ⟨hparallel, hfree⟩ := Bool.and_eq_true_iff.mp hmarked
      have hopens : (⟨outer, .opening frame⟩ : Line).OpensOutermost := by
        cases frame with
        | loop head => exact ⟨head, rfl, hparallel, by simpa using hfree⟩
        | routine name parameters => cases hparallel
      refine ⟨?_, .cons_cons (iff_of_true rfl hopens) (.singleton _), ?_⟩
      · simp [OpensOutermost]
      · simpa using opening_not_isMark outer frame
    · rename_i hunmarked
      refine .single (opening_not_isMark outer frame) ?_
      rintro ⟨head, hc, hparallel, hfree⟩
      cases hc
      exact hunmarked (Bool.and_eq_true_iff.mpr ⟨hparallel, by simpa using hfree⟩)

end LaysOut
end Line

namespace Node

mutual

theorem linesUnder_laysOut (outer : List Frame) : (n : Node) →
    Line.LaysOut outer (n.itemsUnder outer) (n.linesUnder outer)
  | loop head body => by
    rw [itemsUnder, linesUnder]
    exact (linesUnderList_laysOut _ body).enclose
  | bundle equations => by
    rw [itemsUnder, linesUnder]
    induction equations with
    | nil => exact .nil outer
    | cons e equations ih => exact (Line.LaysOut.statement outer
      (Line.getLast?_toList_append (by decide))).append ih
  | call c => by
    rw [itemsUnder, linesUnder]
    exact .statement outer (Line.getLast?_toList_append (by decide))
  | list nodes => by
    rw [itemsUnder, linesUnder]
    exact linesUnderList_laysOut outer nodes
  | routine name parameters body => by
    rw [itemsUnder, linesUnder]
    exact (linesUnderList_laysOut _ body).enclose

theorem linesUnderList_laysOut (outer : List Frame) : (ns : List Node) →
    Line.LaysOut outer (itemsUnderList outer ns) (linesUnderList outer ns)
  | [] => .nil outer
  | n :: ns => by
    rw [itemsUnderList, linesUnderList]
    exact (linesUnder_laysOut outer n).append (linesUnderList_laysOut outer ns)

end

end Node

theorem not_mem_intercalate {sep : String} {pieces : List String} {c : Char}
    (hsep : c ∉ sep.toList) (hpieces : ∀ s ∈ pieces, c ∉ s.toList) :
    c ∉ (sep.intercalate pieces).toList := by
  rw [String.toList_intercalate]
  induction pieces with
  | nil => exact List.not_mem_nil
  | cons s pieces ih =>
    obtain ⟨hs, hrest⟩ := List.forall_mem_cons.mp hpieces
    cases pieces with
    | nil => simpa using hs
    | cons t pieces =>
      rw [List.map_cons, List.map_cons, List.intercalate_cons_cons, List.mem_append,
        List.mem_append, not_or, not_or]
      exact ⟨⟨hs, hsep⟩, ih hrest⟩

theorem LoopHead.not_mem_text {h : LoopHead}
    (hwords : ∀ s ∈ [h.dim.name, h.lower.text, h.upper.text, h.step.text], '\n' ∉ s.toList) :
    '\n' ∉ h.text.toList := by
  simp only [List.forall_mem_cons] at hwords
  unfold text
  cases h.direction <;> simp [toString, hwords]

namespace CodeWriter

variable {w : CodeWriter}

structure Fresh (w : CodeWriter) (level : Nat) : Prop where
  start : w.atLineStart = true
  level : w.level = level
  unit : w.unit = "  "

end CodeWriter

namespace Node

structure Prints (outer : List Frame) (write : CodeWriter → CodeWriter) (lines : List Line) :
    Prop where
  writes : ∀ w : CodeWriter, w.Fresh outer.length → write w = w.append (Line.print lines)
  unbroken : ∀ l ∈ lines, '\n' ∉ l.content.text.toList

namespace Prints

variable {outer : List Frame}

theorem nil (outer : List Frame) : Prints outer id [] where
  writes w _ := by simp [Line.print, CodeWriter.append]
  unbroken := by simp

theorem append {f g : CodeWriter → CodeWriter} {ls ms : List Line} (h : Prints outer f ls)
    (h' : Prints outer g ms) : Prints outer (g ∘ f) (ls ++ ms) where
  writes w hw := by
    rw [Function.comp_apply, h.writes w hw, h'.writes (w.append _) ⟨hw.start, hw.level, hw.unit⟩,
      CodeWriter.append_append, Line.print_append]
  unbroken := List.forall_mem_append.mpr ⟨h.unbroken, h'.unbroken⟩

theorem line (content : Line.Content) (hne : content.text ≠ "")
    (hbreak : '\n' ∉ content.text.toList) :
    Prints outer (·.writeLine content.text) [⟨outer, content⟩] where
  writes w hw := by
    have hprint : Line.print [⟨outer, content⟩] = (⟨outer, content⟩ : Line).text ++ "\n" := by
      simp [Line.print]
    rw [CodeWriter.writeLine_eq hw.start hne hbreak, CodeWriter.margin, hw.level, hw.unit, hprint,
      Line.text]
  unbroken := List.forall_mem_singleton.mpr hbreak

theorem inside {frame : Frame} {f : CodeWriter → CodeWriter} {ls : List Line}
    (h : Prints (outer ++ [frame]) f ls) : Prints outer (fun w => (f w.indent).dedent) ls where
  writes w hw := by
    have hinside : w.indent.Fresh (outer ++ [frame]).length := by
      rw [List.length_append]
      exact ⟨hw.start, congrArg (· + 1) hw.level, hw.unit⟩
    have hundo : ∀ s, (w.indent.append s).dedent = w.append s := fun _ => rfl
    rw [h.writes _ hinside, hundo]
  unbroken := h.unbroken

/-- A block around printed lines, with a mark where it is parallel and nothing around it is. -/
theorem enclose {frame : Frame} {inner : List Line} {body : CodeWriter → CodeWriter}
    (hbreak : '\n' ∉ frame.header.toList) (hbody : Prints (outer ++ [frame]) body inner) :
    Prints outer (fun w =>
      let w := if frame.isParallel && !outer.any Frame.isParallel then w.writeLine parallelMark
        else w
      (body ((w.write frame.header).writeLine " \x7b").indent).dedent.writeLine "\x7d")
      (frame.enclose outer inner) := by
  have hopening : Prints outer (·.writeLine (frame.header ++ " \x7b")) [⟨outer, .opening frame⟩] :=
    line (.opening frame) (by simp) (by simpa using hbreak)
  have hclosing : Prints outer (·.writeLine "\x7d") [⟨outer, .closing frame⟩] :=
    line (.closing frame) (by simp) (by simp)
  have hblock : Prints outer
      (fun w => (body (w.writeLine (frame.header ++ " \x7b")).indent).dedent.writeLine "\x7d")
      (⟨outer, .opening frame⟩ :: (inner ++ [⟨outer, .closing frame⟩])) :=
    hopening.append (hbody.inside.append hclosing)
  unfold Frame.enclose
  simp only [CodeWriter.writeLine_append]
  split
  · have hmark : Prints outer (·.writeLine parallelMark) [⟨outer, .mark⟩] :=
      line .mark (by simp [parallelMark]) (by simp [parallelMark])
    exact hmark.append hblock
  · exact hblock

end Prints

mutual

theorem write_prints (outer : List Frame) : (n : Node) → (∀ s ∈ n.words, '\n' ∉ s.toList) →
    Prints outer (n.write (outer.any Frame.isParallel)) (n.linesUnder outer)
  | loop head body, h => by
    rw [words, List.forall_mem_append] at h
    have hbody := writeList_prints (outer ++ [.loop head]) body h.2
    have hparallel : (outer ++ [Frame.loop head]).any Frame.isParallel =
        (outer.any Frame.isParallel || (head.isParallel && !outer.any Frame.isParallel)) := by
      cases hany : outer.any Frame.isParallel <;> simp [hany, Frame.isParallel]
    rw [hparallel] at hbody
    have hheader : '\n' ∉ (Frame.loop head).header.toList := LoopHead.not_mem_text h.1
    rw [linesUnder]
    exact .enclose hheader hbody
  | bundle equations, h => by
    rw [words, List.forall_mem_map] at h
    rw [linesUnder]
    induction equations with
    | nil => exact .nil outer
    | cons e equations ih =>
      obtain ⟨he, hrest⟩ := List.forall_mem_cons.mp h
      have hline : Prints outer (·.writeLine (e.text ++ ";"))
          [⟨outer, .statement (e.text ++ ";")⟩] :=
        .line (.statement (e.text ++ ";")) (by simp) (by simpa using he)
      exact hline.append (ih hrest)
  | call c, h => by
    rw [words, List.forall_mem_cons] at h
    rw [linesUnder]
    have hargs : '\n' ∉ (", ".intercalate (c.args.map LinExpr.text)).toList :=
      not_mem_intercalate (by decide) h.2
    refine .line (.statement (callText c)) (by simp [callText]) ?_
    simp only [Line.Content.text, callText, String.toList_append, List.mem_append, h.1, hargs]
    decide
  | list nodes, h => by
    rw [words] at h
    rw [linesUnder]
    exact writeList_prints outer nodes h
  | routine name parameters body, h => by
    rw [words, List.cons_append, List.forall_mem_cons, List.forall_mem_append] at h
    have hdeclared : '\n' ∉ (", ".intercalate (parameters.map ("const int " ++ ·))).toList := by
      refine not_mem_intercalate (by decide) (List.forall_mem_map.mpr fun s hs => ?_)
      simpa using h.2.1 s hs
    have hheader : '\n' ∉ (Frame.routine name parameters).header.toList := by
      simp only [Frame.header, String.toList_append, List.mem_append, h.1, hdeclared]
      decide
    have hbody := writeList_prints (outer ++ [.routine name parameters]) body h.2.2
    have hparallel : (outer ++ [Frame.routine name parameters]).any Frame.isParallel =
        outer.any Frame.isParallel := by simp [Frame.isParallel]
    rw [hparallel] at hbody
    rw [linesUnder]
    exact .enclose hheader hbody

theorem writeList_prints (outer : List Frame) : (ns : List Node) →
    (∀ s ∈ wordsList ns, '\n' ∉ s.toList) →
    Prints outer (fun w => writeList (outer.any Frame.isParallel) w ns) (linesUnderList outer ns)
  | [], _ => .nil outer
  | n :: ns, h => by
    rw [wordsList, List.forall_mem_append] at h
    rw [linesUnderList]
    exact (write_prints outer n h.1).append (writeList_prints outer ns h.2)

end

/-- The text of a tree without line breaks in its names and texts consists of lines that say what
the tree says, in reading order. Every line stands in by two blanks for each loop and routine around
it, every block that is opened is closed again, and a line is a mark exactly if the next one opens a
parallel loop with no parallel loop around it. -/
theorem render_laysOut {n : Node} (h : ∀ s ∈ n.words, '\n' ∉ s.toList) : ∃ lines : List Line,
    n.render = Line.print lines ∧ (∀ l ∈ lines, '\n' ∉ l.text.toList) ∧
      lines.filter Line.isItem = n.items ∧ Line.Nested [] lines ∧ Line.Marked lines := by
  have hprints := write_prints [] n h
  have hlays := linesUnder_laysOut [] n
  refine ⟨n.linesUnder [], ?_, fun l hl => ?_, hlays.items, ?_, hlays.marked⟩
  · have hrender : n.render = "" ++ Line.print (n.linesUnder []) :=
      congrArg CodeWriter.output (hprints.writes (.new "  ") ⟨rfl, rfl, rfl⟩)
    rw [hrender, String.empty_append]
  · rw [Line.text, String.toList_append, List.mem_append, not_or]
    exact ⟨by simp [String.toList_join], hprints.unbroken l hl⟩
  · have hnested := (hlays.nested []).mpr rfl
    rwa [List.append_nil] at hnested

def twoParallel : Node :=
  let head (name : String) : LoopHead :=
    ⟨.basic name, .symbol (name ++ "_m"), .symbol (name ++ "_M"), .int 1, .forward,
      .ofList [.parallel]⟩
  routine "Kernel" ["x_M", "x_m"] [loop (head "x") [loop (head "y") [call ⟨"step", []⟩]]]

/-- Only the outer loop is marked. -/
theorem render_laysOut_twoParallel : (∀ s ∈ twoParallel.words, '\n' ∉ s.toList) ∧
    ∃ lines : List Line, twoParallel.render = Line.print lines ∧
      (∀ l ∈ lines, '\n' ∉ l.text.toList) ∧ lines.filter Line.isItem = twoParallel.items ∧
      Line.Nested [] lines ∧ Line.Marked lines := by
  have hwords : ∀ s ∈ twoParallel.words, '\n' ∉ s.toList := by decide +kernel
  exact ⟨hwords, render_laysOut hwords⟩

end Node
end LoopNest
