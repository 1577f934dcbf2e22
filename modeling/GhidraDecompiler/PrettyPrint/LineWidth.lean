import GhidraDecompiler.PrettyPrint.Consistency

namespace GhidraDecompiler.PrettyPrint

open Fallible

/-- The bytes after the last line break. -/
def column (s : List Byte) : Nat := (s.reverse.takeWhile (· ≠ newline)).length

@[simp] theorem column_nil : column [] = 0 := rfl

theorem column_append {s t : List Byte} (h : newline ∉ t) : column (s ++ t) = column s + t.length := by
  have hall : ∀ b ∈ t.reverse, decide (b ≠ newline) = true := by
    intro b hb
    rw [List.mem_reverse] at hb
    exact decide_eq_true fun heq => h (heq ▸ hb)
  rw [column, List.reverse_append, List.takeWhile_append_of_pos hall, List.length_append, List.length_reverse, Nat.add_comm]
  rfl

theorem column_newline (s t : List Byte) (h : newline ∉ t) : column (s ++ newline :: t) = t.length := by
  have hsplit : s ++ newline :: t = (s ++ [newline]) ++ t := by simp
  have hline : column (s ++ [newline]) = 0 := by simp [column]
  rw [hsplit, column_append h, hline, Nat.zero_add]

theorem newline_not_mem_blanks (n : Nat) : newline ∉ List.replicate n blank := by
  intro h
  exact absurd (List.eq_of_mem_replicate h) (by decide)

/-- The plain emitter, with the lengths of the texts of tokens and the columns that they end at. -/
structure Trace where
  out : EmitNoMarkup
  ends : List (Nat × Nat)

namespace Trace

def receive (data : List Byte) (out : EmitNoMarkup) (trace : Trace) : Trace := ⟨out, (data.length, column out.s) :: trace.ends⟩

def emit : Emit Trace where
  mark _ trace := pure trace
  text _ name trace := pure (trace.receive name (trace.out.print name))
  fill data trace := pure { trace with out := trace.out.print data }
  openParen paren trace := pure (trace.receive paren (trace.out.openParen paren))
  closeParen paren trace := pure (trace.receive paren (trace.out.closeParen paren))
  spaces num trace := pure { trace with out := trace.out.spaces num }
  tagLineIndent indent trace := pure { trace with out := trace.out.tagLineIndent indent }
  flush trace := pure trace
  clear trace := { trace with out := { trace.out with parenlevel := 0 } }

end Trace

/-- The tags whose tokens print no text. -/
def TagType.Silent : TagType → Prop
  | .docuB | .docuE | .funcB | .funcE | .blocB | .blocE | .rtypB | .rtypE | .vardB | .vardE | .statB | .statE
  | .protB | .protE | .oinvT | .cinvT => True
  | _ => False

/-- The tags whose tokens print their text. -/
def TagType.Texts : TagType → Prop
  | .variT | .opT | .fnamT | .typeT | .fieldT | .bitfieldT | .commT | .labelT | .caseT | .syntT | .oparT | .cparT => True
  | _ => False

/-- What a token prints, by its class. -/
def TokenSplit.Plain (t : TokenSplit) : Prop :=
  match t.delimtype with
  | .tokenstring => t.size = t.tok.length ∧ newline ∉ t.tok ∧ t.tagtype.Texts
  | .tokenbreak => 0 ≤ t.numspaces ∧ 0 ≤ t.indentbump
  | .beginIndent => 0 ≤ t.indentbump
  | .endIndent => True
  | .begin_ | .end_ | .beginComment | .endComment | .ignore => t.tagtype.Silent

/-- What holds of the output: the space that remains ends at the last column. -/
structure Margin.Fits (max : Int) (fill : List Byte) (m : Margin Trace) : Prop where
  size : m.maxlinesize = max
  fill_eq : m.commentfill = fill
  remains : m.spaceremain + column m.lowlevel.out.s = max
  indents : ∀ indent ∈ m.indentstack, indent ≤ max
  ends : ∀ e ∈ m.lowlevel.ends, (e.1 : Int) ≤ max / 2 - fill.length → (e.2 : Int) ≤ max
  increment : 0 ≤ m.indentincrement

namespace Margin

variable {max : Int} {fill : List Byte} {m m' : Margin Trace} {t : TokenSplit}

theorem Fits.spaceremain_le (h : Fits max fill m) : m.spaceremain ≤ max := by
  have := h.remains
  omega

theorem printEmit_silent {trace out : Trace} (ht : t.tagtype.Silent) (h : t.printEmit Trace.emit trace = .ok out) : out = trace := by
  rw [TokenSplit.printEmit] at h
  cases htag : t.tagtype <;> rw [htag] at h ht <;> first | exact ht.elim | exact (Except.ok.inj h).symm

theorem printEmit_texts {trace out : Trace} (ht : t.tagtype.Texts) (h : t.printEmit Trace.emit trace = .ok out) :
    out.out.s = trace.out.s ++ t.tok ∧ out.ends = (t.tok.length, column out.out.s) :: trace.ends := by
  rw [TokenSplit.printEmit] at h
  cases htag : t.tagtype <;> rw [htag] at h ht <;> first | exact ht.elim | (obtain rfl := Except.ok.inj h; exact ⟨rfl, rfl⟩)

/-- A line break that leaves some space, less the fill of a comment. -/
theorem breakLine_fits (hsize : m.maxlinesize = max) (hfill : m.commentfill = fill) (hspace : m.spaceremain ≤ max)
    (hindents : ∀ indent ∈ m.indentstack, indent ≤ max)
    (hends : ∀ e ∈ m.lowlevel.ends, (e.1 : Int) ≤ max / 2 - fill.length → (e.2 : Int) ≤ max)
    (hincrement : 0 ≤ m.indentincrement) (hplain : newline ∉ fill) (h : breakLine Trace.emit m = .ok m') : Fits max fill m' ∧ m.spaceremain - fill.length ≤ m'.spaceremain := by
  have hline : column (m.lowlevel.out.tagLineIndent (m.maxlinesize - m.spaceremain)).s = (m.maxlinesize - m.spaceremain).toNat := by
    rw [EmitNoMarkup.tagLineIndent]
    dsimp only
    rw [column_newline _ _ (newline_not_mem_blanks _), List.length_replicate]
  rw [breakLine] at h
  obtain ⟨trace, htrace, h⟩ := bind_eq_ok.mp h
  obtain rfl := Except.ok.inj htrace
  split at h
  · obtain ⟨trace, htrace, h⟩ := bind_eq_ok.mp h
    obtain rfl := Except.ok.inj htrace
    obtain rfl := Except.ok.inj h
    refine ⟨⟨hsize, hfill, ?_, hindents, hends, hincrement⟩, by rw [hfill]⟩
    dsimp only [EmitNoMarkup.print]
    rw [column_append (by rwa [hfill]), hline, hsize]
    omega
  · obtain rfl := Except.ok.inj h
    refine ⟨⟨hsize, hfill, ?_, hindents, hends, hincrement⟩, by dsimp only; omega⟩
    dsimp only
    rw [hline, hsize]
    omega

theorem le_of_mem_raiseIndents {half indent : Int} {l : List Int} (hhalf : half ≤ max) (hl : ∀ x ∈ l, x ≤ max)
    (h : indent ∈ raiseIndents half l) : indent ≤ max := by
  induction l with
  | nil => cases h
  | cons x l ih =>
      rw [raiseIndents] at h
      split at h
      · obtain rfl | h := List.mem_cons.mp h
        · exact hhalf
        · exact ih (fun y hy => hl y (List.mem_cons_of_mem _ hy)) h
      · exact hl indent h

theorem raiseIndents_head {half : Int} {l : List Int} (hhalf : half ≤ max) : half ≤ (raiseIndents half l).head?.getD max := by
  cases l with
  | nil => exact hhalf
  | cons x l =>
      rw [raiseIndents]
      split
      · exact Int.le_refl half
      · rename_i hx
        exact Int.not_lt.mp hx

/-- After `overflow`, half of the line remains, less the fill of a comment. -/
theorem overflow_fits (h : Fits max fill m) (hmax : 0 ≤ max) (hplain : newline ∉ fill) (hs : overflow Trace.emit m = .ok m') :
    Fits max fill m' ∧ max / 2 - fill.length ≤ m'.spaceremain := by
  obtain rfl := h.size
  have hhalf : m.maxlinesize / 2 ≤ m.maxlinesize := by omega
  have hindents : ∀ indent ∈ raiseIndents (m.maxlinesize / 2) m.indentstack, indent ≤ m.maxlinesize :=
    fun _ hindent => le_of_mem_raiseIndents hhalf h.indents hindent
  have hhead := raiseIndents_head (l := m.indentstack) hhalf
  have hle : (raiseIndents (m.maxlinesize / 2) m.indentstack).head?.getD m.maxlinesize ≤ m.maxlinesize := by
    cases hhd : (raiseIndents (m.maxlinesize / 2) m.indentstack).head? with
    | none => exact Int.le_refl _
    | some x => exact hindents x (List.mem_of_mem_head? hhd)
  have hspace := h.remains
  rw [overflow] at hs
  split at hs
  · rename_i heq
    obtain rfl := Except.ok.inj hs
    exact ⟨⟨h.size, h.fill_eq, h.remains, hindents, h.ends, h.increment⟩, by dsimp only; omega⟩
  · split at hs
    · rename_i heq
      rw [Bool.and_eq_true, decide_eq_true_eq, h.fill_eq] at heq
      obtain rfl := Except.ok.inj hs
      exact ⟨⟨h.size, h.fill_eq, h.remains, hindents, h.ends, h.increment⟩, by dsimp only; omega⟩
    · obtain ⟨hfits, hremains⟩ := breakLine_fits (m := { m with
        indentstack := raiseIndents (m.maxlinesize / 2) m.indentstack,
        spaceremain := (raiseIndents (m.maxlinesize / 2) m.indentstack).head?.getD m.maxlinesize })
        rfl h.fill_eq hle hindents h.ends h.increment hplain hs
      exact ⟨hfits, by dsimp only at hremains; omega⟩

/-- A text that fits into the space that remains. -/
theorem printText_fits {trace : Trace} (h : Fits max fill m) (htext : t.size = t.tok.length ∧ newline ∉ t.tok ∧ t.tagtype.Texts)
    (hroom : t.size ≤ max / 2 - fill.length → t.size ≤ m.spaceremain) (hs : t.printEmit Trace.emit m.lowlevel = .ok trace) :
    Fits max fill { m with lowlevel := trace, spaceremain := m.spaceremain - t.size } := by
  obtain ⟨hsize, hplain, htag⟩ := htext
  obtain ⟨hout, hends⟩ := printEmit_texts htag hs
  have hcolumn : column trace.out.s = column m.lowlevel.out.s + t.tok.length := by rw [hout, column_append hplain]
  have hremains := h.remains
  refine ⟨h.size, h.fill_eq, ?_, h.indents, ?_, h.increment⟩
  · dsimp only
    omega
  · intro e he hshort
    dsimp only at he
    rw [hends] at he
    obtain rfl | he := List.mem_cons.mp he
    · dsimp only at hshort ⊢
      omega
    · exact h.ends e he hshort

theorem spaces_fits {num : Int} (h : Fits max fill m) (hnum : 0 ≤ num) :
    Fits max fill { m with
      lowlevel := { m.lowlevel with out := m.lowlevel.out.spaces num }, spaceremain := m.spaceremain - num } := by
  have hcolumn : column (m.lowlevel.out.spaces num).s = column m.lowlevel.out.s + num.toNat := by
    rw [EmitNoMarkup.spaces, EmitNoMarkup.print]
    dsimp only
    rw [column_append (newline_not_mem_blanks _), List.length_replicate]
  have hremains := h.remains
  refine ⟨h.size, h.fill_eq, ?_, h.indents, h.ends, h.increment⟩
  dsimp only
  rw [hcolumn]
  omega

theorem indentBack_le {val : Int} (h : Fits max fill m) (hs : m.indentBack = .ok val) : val ≤ max := by
  rw [indentBack] at hs
  split at hs
  · rename_i last hlast
    obtain rfl := Except.ok.inj hs
    exact h.indents last (List.mem_of_mem_head? hlast)
  · cases hs

theorem printBreak_fits (h : Fits max fill m) (hplain : newline ∉ fill) (hclass : t.delimtype = .tokenbreak)
    (ht : 0 ≤ t.numspaces ∧ 0 ≤ t.indentbump) (hs : m.printToken Trace.emit t = .ok m') : Fits max fill m' := by
  rw [printToken, hclass] at hs
  dsimp only at hs
  split at hs
  · split at hs
    · refine (breakLine_fits (m := { m with spaceremain := m.maxlinesize - t.indentbump }) h.size h.fill_eq ?_ h.indents h.ends
        h.increment hplain hs).1
      dsimp only
      rw [h.size]
      omega
    · obtain ⟨last, hlast, hs⟩ := bind_eq_ok.mp hs
      have hle := indentBack_le h hlast
      split at hs
      · obtain ⟨trace, htrace, hs⟩ := bind_eq_ok.mp hs
        obtain rfl := Except.ok.inj htrace
        obtain rfl := Except.ok.inj hs
        exact spaces_fits h ht.1
      · refine (breakLine_fits (m := { m with
          indentstack := (last - t.indentbump) :: m.indentstack.tail, spaceremain := last - t.indentbump })
          h.size h.fill_eq ?_ ?_ h.ends h.increment hplain hs).1
        · dsimp only
          omega
        · intro indent hindent
          obtain rfl | hindent := List.mem_cons.mp hindent
          · omega
          · exact h.indents indent (List.mem_of_mem_tail hindent)
  · obtain ⟨trace, htrace, hs⟩ := bind_eq_ok.mp hs
    obtain rfl := Except.ok.inj htrace
    obtain rfl := Except.ok.inj hs
    exact spaces_fits h ht.1

theorem printString_fits (h : Fits max fill m) (hmax : 0 ≤ max) (hplain : newline ∉ fill) (hclass : t.delimtype = .tokenstring)
    (ht : t.size = t.tok.length ∧ newline ∉ t.tok ∧ t.tagtype.Texts) (hs : m.printToken Trace.emit t = .ok m') :
    Fits max fill m' := by
  rw [printToken, hclass] at hs
  dsimp only at hs
  split at hs
  · obtain ⟨m₁, hm₁, hs⟩ := bind_eq_ok.mp hs
    obtain ⟨hfits, hremains⟩ := overflow_fits h hmax hplain hm₁
    obtain ⟨trace, htrace, hs⟩ := bind_eq_ok.mp hs
    obtain rfl := Except.ok.inj hs
    exact printText_fits hfits ht (fun hshort => Int.le_trans hshort hremains) htrace
  · rename_i hroom
    obtain ⟨m₁, hm₁, hs⟩ := bind_eq_ok.mp hs
    obtain rfl := Except.ok.inj hm₁
    obtain ⟨trace, htrace, hs⟩ := bind_eq_ok.mp hs
    obtain rfl := Except.ok.inj hs
    exact printText_fits h ht (fun _ => Int.not_lt.mp hroom) htrace

/-- A token that begins or ends something may change the mode of comments and the indents. -/
theorem Fits.silent {trace : Trace} {indentstack : List Int} {commentmode : Bool} (h : Fits max fill m) (htag : t.tagtype.Silent)
    (hs : t.printEmit Trace.emit m.lowlevel = .ok trace) (hindents : ∀ indent ∈ indentstack, indent ≤ max) :
    Fits max fill { m with lowlevel := trace, indentstack := indentstack, commentmode := commentmode } := by
  obtain rfl := printEmit_silent htag hs
  exact ⟨h.size, h.fill_eq, h.remains, hindents, h.ends, h.increment⟩

theorem printToken_fits (h : Fits max fill m) (hmax : 0 ≤ max) (hplain : newline ∉ fill) (ht : t.Plain)
    (hs : m.printToken Trace.emit t = .ok m') : Fits max fill m' := by
  have hpush : ∀ indent ∈ m.spaceremain :: m.indentstack, indent ≤ max := by
    intro indent hindent
    obtain rfl | hindent := List.mem_cons.mp hindent
    · exact h.spaceremain_le
    · exact h.indents indent hindent
  have hpop : ∀ indent ∈ m.indentstack.tail, indent ≤ max := fun indent hindent => h.indents indent (List.mem_of_mem_tail hindent)
  rw [TokenSplit.Plain] at ht
  cases hclass : t.delimtype with
  | tokenstring =>
      rw [hclass] at ht
      exact printString_fits h hmax hplain hclass ht hs
  | tokenbreak =>
      rw [hclass] at ht
      exact printBreak_fits h hplain hclass ht hs
  | beginIndent =>
      rw [hclass] at ht
      rw [printToken, hclass] at hs
      obtain ⟨last, hlast, hs⟩ := bind_eq_ok.mp hs
      obtain rfl := Except.ok.inj hs
      have hle := indentBack_le h hlast
      refine ⟨h.size, h.fill_eq, h.remains, ?_, h.ends, h.increment⟩
      intro indent hindent
      dsimp only at ht
      obtain rfl | hindent := List.mem_cons.mp hindent
      · omega
      · exact h.indents indent hindent
  | endIndent =>
      rw [printToken, hclass] at hs
      dsimp only at hs
      split at hs
      · cases hs
      · obtain rfl := Except.ok.inj hs
        exact ⟨h.size, h.fill_eq, h.remains, hpop, h.ends, h.increment⟩
  | begin_ | beginComment =>
      rw [hclass] at ht
      rw [printToken, hclass] at hs
      obtain ⟨trace, htrace, hs⟩ := bind_eq_ok.mp hs
      obtain rfl := Except.ok.inj hs
      exact h.silent ht htrace hpush
  | end_ | endComment =>
      rw [hclass] at ht
      rw [printToken, hclass] at hs
      obtain ⟨trace, htrace, hs⟩ := bind_eq_ok.mp hs
      obtain rfl := Except.ok.inj hs
      exact h.silent ht htrace hpop
  | ignore =>
      rw [hclass] at ht
      rw [printToken, hclass] at hs
      obtain ⟨trace, htrace, hs⟩ := bind_eq_ok.mp hs
      obtain rfl := Except.ok.inj hs
      exact h.silent ht htrace h.indents

theorem stable_fits (hmax : 0 ≤ max) (hplain : newline ∉ fill) : Stable Trace.emit TokenSplit.Plain (Fits max fill) where
  size t n hclass ht := by
    cases hcls : t.delimtype <;> simp only [TokenSplit.Plain, hcls] at ht ⊢ <;> first | exact ht | exact absurd hcls hclass
  print t m m' ht _ h hs := printToken_fits h hmax hplain ht hs

end Margin

/-- The calls of a document with non-negative indents, texts without line breaks and parentheses of one byte. -/
def Call.Plain : Call → Prop
  | .tagLineIndent indent => 0 ≤ indent
  | .tagVariable data | .tagOp data | .tagFuncName data | .tagType data | .tagField data | .tagBitField data
  | .tagComment data | .tagLabel data | .tagCaseLabel data | .print data => newline ∉ data
  | .openParen data | .closeParen data => data.length = 1 ∧ newline ∉ data
  | .spaces _ bump => 0 ≤ bump
  | .setIndentIncrement val => 0 ≤ val
  | .clear | .setMaxLineSize _ | .setCommentFill _ | .resetDefaults => False
  | _ => True

def Action.Plain : Action → Prop
  | .token write => ∀ t, 0 ≤ (write t).width → (write t).Plain
  | .needbreak _ | .flush => True
  | .setIndentIncrement val => 0 ≤ val
  | .clear | .setMaxLineSize _ | .setCommentFill _ | .resetDefaults => False

section Calls

variable {broken : Bool} {increment : Int} {a : Action}

theorem plain_mark {tag : TagType} {cls : PrintClass} (h : tag.Silent)
    (hcls : cls ≠ .tokenstring ∧ cls ≠ .tokenbreak ∧ cls ≠ .beginIndent) : (Action.token (TokenSplit.mark tag cls)).Plain := by
  intro t _
  obtain ⟨hstring, hbreak, hindent⟩ := hcls
  rw [TokenSplit.Plain, TokenSplit.mark]
  cases cls with
  | tokenstring => exact absurd rfl hstring
  | tokenbreak => exact absurd rfl hbreak
  | beginIndent => exact absurd rfl hindent
  | begin_ | end_ | endIndent | beginComment | endComment | ignore => first | exact h | trivial

theorem plain_text {tag : TagType} {data : List Byte} (h : tag.Texts) (hdata : newline ∉ data) :
    (Action.token (TokenSplit.text tag data)).Plain := fun _ _ => ⟨rfl, hdata, h⟩

theorem plain_paren {tag : TagType} {data : List Byte} (h : tag.Texts) (hdata : data.length = 1 ∧ newline ∉ data) :
    (Action.token (TokenSplit.paren tag data)).Plain := by
  intro t _
  refine ⟨?_, hdata.2, h⟩
  rw [TokenSplit.paren]
  dsimp only
  rw [hdata.1]
  rfl

theorem plain_lineBreak {tag : TagType} {num bump : Int} (h : 0 ≤ bump) : (Action.token (TokenSplit.lineBreak tag num bump)).Plain :=
  fun _ hwidth => ⟨hwidth, h⟩

theorem plain_checkstart (ha : a ∈ checkstart broken) : a.Plain := by
  cases broken with
  | false =>
      obtain rfl := List.mem_singleton.mp ha
      trivial
  | true =>
      obtain rfl | ha := List.mem_cons.mp ha
      · exact plain_lineBreak (Int.le_refl 0)
      · obtain rfl := List.mem_singleton.mp ha
        trivial

theorem plain_checkstring (ha : a ∈ checkstring broken) : a.Plain := by
  cases broken with
  | false =>
      obtain rfl := List.mem_singleton.mp ha
      trivial
  | true =>
      obtain rfl | ha := List.mem_cons.mp ha
      · exact plain_lineBreak (Int.le_refl 0)
      · obtain rfl := List.mem_singleton.mp ha
        trivial

theorem plain_checkend (ha : a ∈ checkend broken) : a.Plain := by
  cases broken with
  | true =>
      obtain rfl := List.mem_singleton.mp ha
      trivial
  | false =>
      obtain rfl | ha := List.mem_cons.mp ha
      · exact plain_text trivial List.not_mem_nil
      · obtain rfl := List.mem_singleton.mp ha
        trivial

theorem plain_checkbreak (ha : a ∈ checkbreak broken) : a.Plain := by
  cases broken with
  | true =>
      obtain rfl := List.mem_singleton.mp ha
      trivial
  | false =>
      obtain rfl | ha := List.mem_cons.mp ha
      · exact plain_text trivial List.not_mem_nil
      · obtain rfl := List.mem_singleton.mp ha
        trivial

/-- A check followed by one token. -/
theorem plain_of_check {check : List Action} {write : TokenSplit → TokenSplit} (hcheck : ∀ a ∈ check, a.Plain)
    (hwrite : (Action.token write).Plain) : ∀ a ∈ check ++ [Action.token write], a.Plain := by
  intro a ha
  obtain ha | ha := List.mem_append.mp ha
  · exact hcheck a ha
  · obtain rfl := List.mem_singleton.mp ha
    exact hwrite

theorem plain_single (h : a.Plain) : ∀ b ∈ [a], b.Plain := by
  intro b hb
  rwa [List.mem_singleton.mp hb]

theorem Call.Plain.actions {c : Call} (hc : c.Plain) (hincrement : 0 ≤ increment) :
    ∀ a ∈ c.actions broken increment, a.Plain := by
  have hmark {tag : TagType} {cls : PrintClass} (h : tag.Silent)
      (hcls : cls ≠ .tokenstring ∧ cls ≠ .tokenbreak ∧ cls ≠ .beginIndent) := plain_mark h hcls
  cases c with
  | beginDocument => exact plain_of_check (fun _ => plain_checkstart) fun _ _ => trivial
  | beginFunction => exact plain_of_check (fun _ => plain_checkstart) fun _ _ => trivial
  | endDocument => exact plain_of_check (fun _ => plain_checkend) fun _ _ => trivial
  | endFunction => exact plain_of_check (fun _ => plain_checkend) fun _ _ => trivial
  | beginBlock | endBlock => exact plain_single (hmark trivial (by decide))
  | tagLine => exact plain_of_check (fun _ => plain_checkbreak) (plain_lineBreak (Int.le_refl 0))
  | tagLineIndent indent => exact plain_of_check (fun _ => plain_checkbreak) (plain_lineBreak hc)
  | spaces num bump => exact plain_of_check (fun _ => plain_checkbreak) (plain_lineBreak hc)
  | beginReturnType | beginVarDecl | beginStatement | beginFuncProto | openGroup | startComment =>
      exact plain_of_check (fun _ => plain_checkstart) (hmark trivial (by decide))
  | endReturnType | endVarDecl | endStatement | endFuncProto | closeGroup | stopComment =>
      exact plain_of_check (fun _ => plain_checkend) (hmark trivial (by decide))
  | tagVariable data | tagOp data | tagFuncName data | tagType data | tagField data | tagBitField data
  | tagComment data | tagLabel data | tagCaseLabel data | print data =>
      exact plain_of_check (fun _ => plain_checkstring) (plain_text trivial hc)
  | openParen data =>
      have hparen : (Action.token (TokenSplit.openParen data)).Plain := plain_paren trivial hc
      intro a ha
      obtain ha | ha := List.mem_append.mp ha
      · exact plain_checkstart ha
      · obtain rfl | ha := List.mem_cons.mp ha
        · exact hmark trivial (by decide)
        · obtain rfl | ha := List.mem_cons.mp ha
          · exact hparen
          · rw [List.mem_singleton.mp ha]
            trivial
  | closeParen data =>
      have hparen : (Action.token (TokenSplit.closeParen data)).Plain := plain_paren trivial hc
      intro a ha
      rw [Call.actions, List.mem_append, List.mem_append] at ha
      obtain (ha | ha) | ha := ha
      · exact plain_of_check (fun _ => plain_checkstring) hparen a ha
      · exact plain_checkend ha
      · rw [List.mem_singleton.mp ha]
        exact hmark trivial (by decide)
  | startIndent => exact plain_single fun _ _ => hincrement
  | stopIndent => exact plain_single fun _ _ => trivial
  | flush => exact plain_single trivial
  | setIndentIncrement val => exact plain_single hc
  | clear | setMaxLineSize val | setCommentFill fill | resetDefaults => exact hc.elim

end Calls

namespace EmitPrettyPrint

variable {s s' : EmitPrettyPrint Trace} {max increment : Int} {fill : List Byte} {a : Action} {todo : List Action} {val : Nat}

theorem perform_fits (hmax : 0 ≤ max) (hplain : newline ∉ fill) (h : Invariant TokenSplit.Plain (Margin.Fits max fill) s)
    (ha : a.Plain) (hroom : s.ActionHasRoom a) (hs : s.perform Trace.emit a = .ok s') :
    Invariant TokenSplit.Plain (Margin.Fits max fill) s' := by
  have hst := Margin.stable_fits hmax hplain
  cases a with
  | token write => exact addToken_invariant hst h hroom ha hs
  | needbreak value =>
      cases hs
      exact h
  | setIndentIncrement val =>
      cases hs
      obtain ⟨toks, hscanned, hfits⟩ := h
      exact ⟨toks, hscanned, { hfits with increment := ha }⟩
  | flush =>
      obtain ⟨toks, hscanned, hfits⟩ := h
      obtain ⟨s₁, hs₁, hs⟩ := bind_eq_ok.mp hs
      obtain ⟨trace, htrace, hs⟩ := bind_eq_ok.mp hs
      obtain rfl := Except.ok.inj htrace
      obtain ⟨hflushed, hfits₁⟩ := flushTokens_scanned hst hscanned hfits hs₁
      cases hs
      exact ⟨[], hflushed, hfits₁⟩
  | clear | setMaxLineSize val | setCommentFill fill | resetDefaults => exact ha.elim

/-- A printer before a document. -/
def opened (val : Nat) (h : 20 ≤ val) (fill : List Byte) (increment : Int) : EmitPrettyPrint Trace :=
  { applyMaxLineSize Trace.emit val h (new Trace.emit ⟨⟨0, []⟩, []⟩) with commentfill := fill, indentincrement := increment }

theorem reached_fits {h20 : 20 ≤ val} (hplain : newline ∉ fill) (hincrement : 0 ≤ increment)
    (h : Reached Trace.emit Call.Plain ActionHasRoom (opened val h20 fill increment) s todo) :
    Invariant TokenSplit.Plain (Margin.Fits val fill) s ∧ ∀ a ∈ todo, a.Plain := by
  induction h with
  | start =>
      refine ⟨invariant_of_empty CircularQueue.holds_clear CircularQueue.holds_clear ?_ (Int.le_refl 1)
        (show (1 : Int) < 2 ^ 31 by decide) ?_, by simp⟩
      · simp [opened, applyMaxLineSize, clear]
      · exact ⟨rfl, rfl, Int.add_zero _, by simp [opened, applyMaxLineSize, clear], by
          simp [opened, applyMaxLineSize, clear, new, Trace.emit], hincrement⟩
  | call _ hc ih =>
      obtain ⟨⟨toks, hscanned, hfits⟩, -⟩ := ih
      exact ⟨⟨toks, hscanned, hfits⟩, hc.actions hfits.increment⟩
  | perform _ ha hs ih =>
      obtain ⟨hinv, hall⟩ := ih
      exact ⟨perform_fits (Int.natCast_nonneg val) hplain hinv (hall _ List.mem_cons_self) ha hs,
        fun b hb => hall b (List.mem_cons_of_mem _ hb)⟩

def narrowPrinter : EmitPrettyPrint Trace := opened 20 (by decide) [] 2

theorem hasRoom_narrowPrinter : narrowPrinter.HasRoom TokenSplit.beginDocument :=
  ⟨by decide +kernel, by decide +kernel, fun h => absurd h (by decide +kernel)⟩

/-- A text that waits in the token queue while the scan queue becomes full, and a text that empties it. -/
def staleCalls : List Call :=
  [.beginDocument, .print (List.replicate 30 0x61), .flush] ++ List.replicate 57 .beginBlock ++
    [.print (List.replicate 3 0x61), .beginBlock, .beginBlock, .print (List.replicate 3 0x61)]

end EmitPrettyPrint

end GhidraDecompiler.PrettyPrint
