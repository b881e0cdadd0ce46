import ExprLang.Proofs.Parser.Building
import ExprLang.Proofs.Parser.Order

/-!
# Spans are nested

A node covers its source from the start of one token to the end of another, and in between there
are its parts, one behind the other: its own token and its children in the order of the source
(`parse_nested`).

Cursors tell where a tree is built.  `c.Row ss d` says that the spans `ss` run from cursor to
cursor, one behind the other, from `c` on and up to the token that `d` stands on, and the parts of
a node that is built are in such a row (`Expr.Built.lies`).  That the tokens themselves come one
behind the other (`Cursor.Tiled`) turns this into what is said about offsets.
-/

namespace ExprLang

open Parse

/-! ## Spans -/

namespace Span

/-- The offset where a span starts. -/
def lower (s : Span) : Nat := s.start.offset.toNat

/-- The offset where a span stops. -/
def upper (s : Span) : Nat := s.stop.offset.toNat

/-- Does one span lie inside another? -/
def Inside (s u : Span) : Prop := u.lower ≤ s.lower ∧ s.upper ≤ u.upper

/-- Does one span stop before another starts? -/
def Precedes (s u : Span) : Prop := s.upper ≤ u.lower

/-- Does a span name one file? -/
def Names (file : String) (s : Span) : Prop := s.start.file = file ∧ s.stop.file = file

end Span

/-- The spans of the parts of a node in the order of the source: those of its children, and that
of its own token where it stands among them.  The token of an expression statement belongs to the
expression as well, or to parentheses around it. -/
def Node.parts : Node → List Span
  | .expr (.identifier id) => [id.site.token.span]
  | .expr (.integer site _) => [site.token.span]
  | .expr (.boolean site _) => [site.token.span]
  | .expr (.unary site _ right) => [site.token.span, right.site.span]
  | .expr (.binary site _ left right) => [left.site.span, site.token.span, right.site.span]
  | .expr (.conditional site condition consequence alternative) =>
      site.token.span :: condition.site.span :: consequence.site.span ::
        alternative.toList.map (·.site.span)
  | .expr (.function site ids body) =>
      site.token.span :: (ids.map (·.site.span) ++ [body.site.span])
  | .expr (.call site callee es) =>
      callee.site.span :: site.token.span :: es.map (·.site.span)
  | .block (.mk site body) => site.token.span :: body.map (·.site.span)
  | .stmt (.binding site name value) => [site.token.span, name.site.span, value.site.span]
  | .stmt (.result site value) => [site.token.span, value.site.span]
  | .stmt (.expression _ value) => [value.site.span]

/-! ## Rows -/

namespace Cursor

/-- Spans run from cursor to cursor, one behind the other, from `c` on and up to the token that
`d` stands on. -/
inductive Row : Cursor → List Span → Cursor → Prop
  | nil {c d : Cursor} : c.Reaches d.advance → Row c [] d
  | cons {a b c d : Cursor} {ss : List Span} : c.Reaches a → a.Reaches b → b.Reaches d →
      Row b.advance ss d → Row c (a.spanTo b :: ss) d

namespace Row

variable {a b c d e : Cursor} {ss us : List Span}

theorem token (c : Cursor) : c.Row [c.current.span] c :=
  .cons (.refl c) (.refl c) (.refl c) (.nil (.refl _))

theorem single (h : c.Reaches a) (hab : a.Reaches b) (hd : b.Reaches d) : c.Row [a.spanTo b] d :=
  .cons h hab hd (.nil hd.advances)

theorem skip (h : c.Reaches d) (hd : d.Row ss e) : c.Row ss e := by
  cases hd with
  | nil hde => exact .nil (h.trans hde)
  | cons ha hab hb hss => exact .cons (h.trans ha) hab hb hss

theorem mono (h : c.Row ss d) (hd : d.Reaches e) : c.Row ss e := by
  induction h with
  | nil h => exact .nil (h.trans hd.advances)
  | cons ha hab hb _ ih => exact .cons ha hab (hb.trans hd) (ih hd)

theorem append (h : c.Row ss d) (hd : d.Reaches e) (k : d.advance.Row us e) :
    c.Row (ss ++ us) e := by
  induction h with
  | nil h => exact k.skip h
  | cons ha hab hb _ ih => exact .cons ha hab (hb.trans hd) (ih hd k)

end Row

end Cursor

/-! ## Where nodes lie -/

/-- The node covers the tokens from that of `a` to that of `b`, and its own token and its parts lie
there. -/
structure Node.Lies (n : Node) (a b : Cursor) : Prop where
  reaches : a.Reaches b
  /-- The last token is not the end token. -/
  stops : b.current.kind ≠ .eof
  span_eq : n.site.span = a.spanTo b
  token : ∃ t, a.Reaches t ∧ t.Reaches b ∧ n.site.token = t.current
  parts : a.Row n.parts b

/-- The node lies somewhere from `c` on and up to `d`. -/
def Node.LiesIn (n : Node) (c d : Cursor) : Prop :=
  ∃ a b, c.Reaches a ∧ b.Reaches d ∧ n.Lies a b

namespace Node

variable {n : Node} {a b c d c' d' : Cursor} {ss : List Span}

/-- A node that starts with its own token lies where its other parts do. -/
theorem Lies.of_token (hsite : n.site = ⟨c.current, c.spanTo d⟩)
    (hparts : n.parts = c.current.span :: ss) (hd : c.Reaches d) (hk : d.current.kind ≠ .eof)
    (hss : c.advance.Row ss d) : n.Lies c d where
  reaches := hd
  stops := hk
  span_eq := by rw [hsite]
  token := ⟨c, .refl c, hd, by rw [hsite]⟩
  parts := hparts ▸ (Cursor.Row.token c).append hd hss

theorem LiesIn.here (h : n.Lies c d) : n.LiesIn c d := ⟨c, d, .refl c, .refl d, h⟩

theorem LiesIn.mono (h : n.LiesIn c d) (hc : c'.Reaches c) (hd : d.Reaches d') :
    n.LiesIn c' d' := by
  obtain ⟨a, b, ha, hb, h⟩ := h
  exact ⟨a, b, hc.trans ha, hb.trans hd, h⟩

/-- A node is in a row by itself. -/
theorem LiesIn.row (h : n.LiesIn c d) : c.Row [n.site.span] d := by
  obtain ⟨a, b, ha, hb, h⟩ := h
  rw [h.span_eq]
  exact .single ha h.reaches hb

/-- A node that starts where its left part does, before its own token, lies from there up to where
its other parts do. -/
theorem LiesIn.of_left {left : Expr} (h : (Node.expr left).LiesIn c d)
    (hsite : n.site = ⟨d.peek, ⟨left.site.span.start, d'.current.span.stop⟩⟩)
    (hparts : n.parts = left.site.span :: d.peek.span :: ss) (hd : d.advance.Reaches d')
    (hk : d'.current.kind ≠ .eof) (hss : d.advance.advance.Row ss d') : n.LiesIn c d' := by
  obtain ⟨a, b, ha, hb, h⟩ := h
  have hspan : left.site.span = a.spanTo b := h.span_eq
  have hbd : b.Reaches d' := hb.trans (.step hd)
  have htoken : d.advance.Row (d.peek.span :: ss) d' :=
    (Cursor.Row.token d.advance).append hd hss
  refine ⟨a, d', ha, .refl d', h.reaches.trans hbd, hk, ?_, ⟨d.advance, ?_, hd, ?_⟩, ?_⟩
  · rw [hsite, hspan]
    rfl
  · exact h.reaches.trans (hb.trans (.advance d))
  · rw [hsite]
    rfl
  · rw [hparts, hspan]
    exact .cons (.refl a) h.reaches hbd (htoken.skip hb.advances)

end Node

theorem Identifier.SomeBuilt.row {ids : List Identifier} {c d : Cursor}
    (h : Identifier.SomeBuilt ids c d) : c.advance.Row (ids.map (·.site.span)) d := by
  induction h with
  | @last c _ => exact .token c.advance
  | @more c d ids _ h ih =>
    exact (Cursor.Row.token c.advance).append (.step h.reaches) (ih.skip (.advance _))

theorem Identifier.ListBuilt.row {ids : List Identifier} {c d : Cursor}
    (h : Identifier.ListBuilt ids c d) : c.advance.Row (ids.map (·.site.span)) d := by
  cases h with
  | none => exact .nil (.advance _)
  | some h => exact h.row.mono (.advance _)

/-! ### The last token -/

theorem Block.Built.stops {b : Block} {c d : Cursor} (h : b.Built c d) :
    d.current.kind ≠ .eof := by
  cases h with
  | mk _ hk => rw [hk]; decide

theorem Block.ElseBuilt.stops {a : Option Block} {c d : Cursor} (h : Block.ElseBuilt a c d)
    (hc : c.current.kind ≠ .eof) : d.current.kind ≠ .eof := by
  cases h with
  | none => exact hc
  | some hb => exact hb.stops

theorem Cursor.Closes.stops {c d : Cursor} (h : c.Closes d) (hc : c.current.kind ≠ .eof) :
    d.current.kind ≠ .eof := by
  cases h with
  | bare => exact hc
  | semicolon hk =>
    show c.peek.kind ≠ .eof
    rw [hk]
    decide

theorem Expr.ListBuilt.stops {es : List Expr} {c d : Cursor} (h : Expr.ListBuilt es c d) :
    d.current.kind ≠ .eof := by
  have hparen {c : Cursor} (hk : c.peek.kind = .closeParen) : c.advance.current.kind ≠ .eof := by
    show c.peek.kind ≠ .eof
    rw [hk]
    decide
  cases h with
  | nil hk => exact hparen hk
  | cons _ _ hk => exact hparen hk

theorem Expr.Built.stops {e : Expr} {c d : Cursor} : e.Built c d → d.current.kind ≠ .eof
  | .identifier hk => by rw [hk]; decide
  | .integer hk => by rw [hk]; decide
  | .boolean hk => by rcases hk with hk | hk <;> rw [hk] <;> decide
  | .unary h => h.stops
  | .binary _ hr => hr.stops
  | .conditional _ hb ha => ha.stops hb.stops
  | .function _ hb => hb.stops
  | .call _ hes => hes.stops
  | .group (d := d) _ hk => by
    show d.peek.kind ≠ .eof
    rw [hk]
    decide

theorem Stmt.Built.stops {s : Stmt} {c d : Cursor} (h : s.Built c d) :
    d.current.kind ≠ .eof := by
  cases h with
  | binding _ he hd => exact hd.stops he.stops
  | result he hd => exact hd.stops he.stops
  | expression he hd => exact hd.stops he.stops

/-! ### Every node that is built -/

mutual

/-- An expression lies where it is built, and inside of parentheses around it. -/
theorem Expr.Built.lies {e : Expr} {c d : Cursor} : e.Built c d → (Node.expr e).LiesIn c d
  | h@(.identifier _) => .here (.of_token rfl rfl (.refl c) h.stops (.nil (.refl _)))
  | h@(.integer _) => .here (.of_token rfl rfl (.refl c) h.stops (.nil (.refl _)))
  | h@(.boolean _) => .here (.of_token rfl rfl (.refl c) h.stops (.nil (.refl _)))
  | .unary h => .here (.of_token rfl rfl (.step h.reaches) h.stops h.lies.row)
  | .group h _ => h.lies.mono (.advance c) (.advance _)
  | .binary hl hr =>
    hl.lies.of_left rfl rfl (.step hr.reaches) hr.stops hr.lies.row
  | h@(.conditional hc hb ha) => by
    refine .here (.of_token rfl rfl h.reaches h.stops ?_)
    have hrest := hb.lies.row.append ha.reaches ha.row
    have hbranches := (hb.reaches.trans ha.reaches)
    exact (hc.lies.row.append (.step (.step hbranches)) (hrest.skip (.advance _))).skip (.advance _)
  | h@(.function hids hb) => by
    refine .here (.of_token rfl rfl h.reaches h.stops ?_)
    exact hids.row.skip (.advance _) |>.append (.step hb.reaches) hb.lies.row
  | .call hf hes => hf.lies.of_left rfl rfl hes.reaches hes.stops hes.row

theorem Expr.ListBuilt.row {es : List Expr} {c d : Cursor} :
    Expr.ListBuilt es c d → c.advance.Row (es.map (·.site.span)) d
  | .nil _ => .nil (.advance _)
  | .cons he hes _ => (he.lies.row.append hes.reaches hes.row).mono (.advance _)

theorem Expr.MoreBuilt.row {es : List Expr} {c d : Cursor} :
    Expr.MoreBuilt es c d → c.advance.Row (es.map (·.site.span)) d
  | .nil => .nil (.refl _)
  | .cons he hes => (he.lies.row.append hes.reaches hes.row).skip (.advance _)

theorem Block.Built.lies {b : Block} {c d : Cursor} : b.Built c d → (Node.block b).LiesIn c d
  | h@(.mk hss _) => .here (.of_token rfl rfl h.reaches h.stops hss.row)

theorem Block.ElseBuilt.row {a : Option Block} {c d : Cursor} :
    Block.ElseBuilt a c d → c.advance.Row (a.toList.map (·.site.span)) d
  | .none => .nil (.refl _)
  | .some hb => hb.lies.row.skip (.advance _)

theorem Stmt.Built.lies {s : Stmt} {c d : Cursor} : s.Built c d → (Node.stmt s).LiesIn c d
  | h@(.binding _ he hd) => by
    refine .here (.of_token rfl rfl h.reaches h.stops ?_)
    have hvalue := (he.lies.row.mono hd.reaches).skip (.advance _)
    exact (Cursor.Row.token c.advance).append (.step (.step (he.reaches.trans hd.reaches))) hvalue
  | h@(.result he hd) =>
    .here (.of_token rfl rfl h.reaches h.stops (he.lies.row.mono hd.reaches))
  | h@(.expression he hd) =>
    .here ⟨h.reaches, h.stops, rfl, ⟨c, .refl c, h.reaches, rfl⟩, he.lies.row.mono hd.reaches⟩

theorem Stmt.ListBuilt.row {ss : List Stmt} {c d : Cursor} :
    Stmt.ListBuilt ss c d → c.Row (ss.map (·.site.span)) d
  | .nil => .nil (.advance _)
  | .kept _ hs hss => hs.lies.row.append (.step hss.reaches) hss.row
  | .dropped h hss => hss.row.skip (h.trans (.advance _))

end

/-! ## Offsets -/

namespace Cursor

variable {a b c d : Cursor} {ss : List Span} {source : String} {file? : Option String}

/-- The tokens of the stream come one behind the other, and only the end token is empty. -/
structure Tiled (c : Cursor) : Prop where
  start_le_stop : ∀ n, (c.stream n).start ≤ (c.stream n).stop
  start_lt_stop : ∀ n, (c.stream n).kind ≠ .eof → (c.stream n).start < (c.stream n).stop
  stop_le_start : ∀ i j, i < j → (c.stream i).stop ≤ (c.stream j).start

theorem Tiled.of_reaches (h : c.Tiled) (k : c.Reaches d) : d.Tiled := by
  obtain ⟨m, -, hstream⟩ := k.stream
  refine ⟨fun n => ?_, fun n hn => ?_, fun i j hij => ?_⟩
  · rw [hstream]
    exact h.start_le_stop _
  · rw [hstream] at hn ⊢
    exact h.start_lt_stop _ hn
  · rw [hstream, hstream]
    exact h.stop_le_start _ _ (Nat.add_lt_add_left hij m)

theorem tiled_ofSource (hsize : source.utf8ByteSize < UInt32.size) (file? : Option String) :
    (ofScanner (.ofSource source file?)).Tiled := by
  have hreaches := Reaches.refl (ofScanner (.ofSource source file?))
  obtain ⟨ts, htokens, htiles⟩ := exists_tiles hsize file?
  have hlt (n : Nat) (hn : ((ofScanner (.ofSource source file?)).stream n).kind ≠ .eof) :
      ((ofScanner (.ofSource source file?)).stream n).start <
        ((ofScanner (.ofSource source file?)).stream n).stop := by
    have hmem := hreaches.mem_tokenize n
    rw [htokens] at hmem
    rcases List.mem_append.1 hmem with hmem | hmem
    · exact (htiles.bounds _ hmem).2.2.1
    · rw [List.mem_singleton.1 hmem] at hn
      exact absurd rfl hn
  refine ⟨fun n => ?_, hlt, fun i j hij => ?_⟩
  · by_cases hn : ((ofScanner (.ofSource source file?)).stream n).kind = .eof
    · rw [eq_endOf_of_mem (hreaches.mem_tokenize n) hn]
      exact Nat.le_refl _
    · exact Nat.le_of_lt (hlt n hn)
  · by_cases hi : ((ofScanner (.ofSource source file?)).stream i).kind = .eof
    · rw [(settled_ofSource source file?).stream_eq (Nat.le_of_lt hij) hi,
        eq_endOf_of_mem (hreaches.mem_tokenize i) hi]
      exact Nat.le_refl _
    · exact hreaches.rel_of_pairwise (pairwise_stop_tokenize hsize file?) hij hi

/-- Later tokens start further on. -/
theorem Tiled.start_le (h : c.Tiled) (k : c.Reaches d) : c.current.start ≤ d.current.start := by
  obtain ⟨n, -, hstream⟩ := k.stream
  have hd : d.current = c.stream n := hstream 0
  rw [hd]
  cases n with
  | zero => exact Nat.le_refl _
  | succ n => exact Nat.le_trans (h.start_le_stop 0) (h.stop_le_start 0 (n + 1) (by omega))

theorem Tiled.stop_le (h : c.Tiled) (k : c.Reaches d) : c.current.stop ≤ d.current.stop := by
  obtain ⟨n, -, hstream⟩ := k.stream
  have hd : d.current = c.stream n := hstream 0
  rw [hd]
  cases n with
  | zero => exact Nat.le_refl _
  | succ n => exact Nat.le_trans (h.stop_le_start 0 (n + 1) (by omega)) (h.start_le_stop _)

theorem Tiled.stop_le_advance (h : c.Tiled) : c.current.stop ≤ c.advance.current.start :=
  h.stop_le_start 0 1 (by decide)

/-- Spans in a row lie between its ends. -/
theorem Row.bounds (h : c.Row ss d) (hc : c.Tiled) :
    ∀ s ∈ ss, c.current.start ≤ s.lower ∧ s.upper ≤ d.current.stop := by
  induction h with
  | nil => exact List.forall_mem_nil _
  | @cons a b c d ss ha hab hb _ ih =>
    have hca := ha.trans hab
    refine List.forall_mem_cons.2 ⟨⟨hc.start_le ha, ?_⟩, fun s hs => ?_⟩
    · exact (hc.of_reaches hca).stop_le hb
    · have hnext := hca.trans (.advance b)
      obtain ⟨hlower, hupper⟩ := ih (hc.of_reaches hnext) s hs
      exact ⟨Nat.le_trans (hc.start_le hnext) hlower, hupper⟩

/-- Spans in a row come one behind the other. -/
theorem Row.pairwise (h : c.Row ss d) (hc : c.Tiled) : ss.Pairwise Span.Precedes := by
  induction h with
  | nil => exact .nil
  | @cons a b c d ss ha hab hb hss ih =>
    have hb := hc.of_reaches (ha.trans hab)
    have hnext := hb.of_reaches (.advance b)
    refine .cons (fun s hs => ?_) (ih hnext)
    exact Nat.le_trans hb.stop_le_advance (hss.bounds hnext s hs).1

end Cursor

/-! ## Files -/

/-- The tokens of a source name its file. -/
theorem Munch.names_of_mem_place {file : String} {t : Token} : ∀ {ps : List Piece} {offset : Nat},
    t ∈ place file offset ps → t.span.Names file
  | [], _, h => absurd h List.not_mem_nil
  | _ :: _, _, h => by
    rcases List.mem_cons.1 h with rfl | h
    · exact ⟨rfl, rfl⟩
    · exact names_of_mem_place h

theorem names_of_mem_tokenize {source : String} {file? : Option String} {t : Token}
    (h : t ∈ tokenize source file?) : t.span.Names (file?.getD unnamedFile) := by
  rw [tokenize_eq_append_endOf] at h
  rcases List.mem_append.1 h with h | h
  · exact Munch.names_of_mem_place h
  · rw [List.mem_singleton.1 h]
    exact ⟨rfl, rfl⟩

/-! ## Programs -/

/-- The node covers a stretch of its file from the start of a token to the end of another one, its
own token and its parts lie inside, and its parts stop before the next one starts. -/
structure Node.Placed (file : String) (ts : List Token) (n : Node) : Prop where
  starts : ∃ t ∈ ts, n.site.span.start = t.span.start
  stops : ∃ t ∈ ts, n.site.span.stop = t.span.stop
  nonempty : n.site.span.lower < n.site.span.upper
  token : n.site.token.span.Inside n.site.span
  parts : ∀ s ∈ n.parts, s.Inside n.site.span
  ordered : n.parts.Pairwise Span.Precedes
  names : n.site.span.Names file ∧ n.site.token.span.Names file

variable {source : String} {file? : Option String} {n : Node} {a b c d : Cursor}

theorem Node.Built.liesIn (h : n.Built c) : ∃ a b, c.Reaches a ∧ n.Lies a b := by
  have here {c₁ c₂ : Cursor} (hc : c.Reaches c₁) (h : n.LiesIn c₁ c₂) :
      ∃ a b, c.Reaches a ∧ n.Lies a b := by
    obtain ⟨a, b, ha, -, h⟩ := h
    exact ⟨a, b, hc.trans ha, h⟩
  match n, h with
  | .expr _, ⟨_, _, hc, h⟩ => exact here hc h.lies
  | .block _, ⟨_, _, hc, h⟩ => exact here hc h.lies
  | .stmt _, ⟨_, _, hc, _, h⟩ => exact here hc h.lies

theorem Node.Lies.placed (h : n.Lies a b) (hsize : source.utf8ByteSize < UInt32.size)
    (ha : (Cursor.ofScanner (.ofSource source file?)).Reaches a) :
    n.Placed (file?.getD unnamedFile) (tokenize source file?) := by
  have hb := ha.trans h.reaches
  have htiled := (Cursor.tiled_ofSource hsize file?).of_reaches ha
  have hmem {c : Cursor} (hc : (Cursor.ofScanner (.ofSource source file?)).Reaches c) :
      c.current ∈ tokenize source file? := hc.mem_tokenize 0
  have hlower : n.site.span.lower = a.current.start := by rw [h.span_eq]; rfl
  have hupper : n.site.span.upper = b.current.stop := by rw [h.span_eq]; rfl
  obtain ⟨t, hat, htb, htoken⟩ := h.token
  refine ⟨⟨_, hmem ha, by rw [h.span_eq]; rfl⟩, ⟨_, hmem hb, by rw [h.span_eq]; rfl⟩, ?_, ⟨?_, ?_⟩,
    fun s hs => ⟨?_, ?_⟩, h.parts.pairwise htiled, ⟨?_, ?_⟩, ?_⟩
  · rw [hlower, hupper]
    exact Nat.lt_of_le_of_lt (htiled.start_le h.reaches)
      ((htiled.of_reaches h.reaches).start_lt_stop 0 h.stops)
  · rw [hlower, htoken]
    exact htiled.start_le hat
  · rw [hupper, htoken]
    exact (htiled.of_reaches hat).stop_le htb
  · rw [hlower]
    exact (h.parts.bounds htiled s hs).1
  · rw [hupper]
    exact (h.parts.bounds htiled s hs).2
  · rw [h.span_eq]
    exact (names_of_mem_tokenize (hmem ha)).1
  · rw [h.span_eq]
    exact (names_of_mem_tokenize (hmem hb)).2
  · rw [htoken]
    exact names_of_mem_tokenize (hmem (ha.trans hat))

/-- What is recorded blames a position in the file. -/
theorem Parser.Failed.names {start q : Parser} {d : Diagnostic} (h : start.Failed d q)
    (hq : (Cursor.ofScanner (.ofSource source file?)).Reaches q.cursor) :
    d.position.file = file?.getD unnamedFile := by
  have hmem (n : Nat) : (q.cursor.stream n).span.start.file = file?.getD unnamedFile :=
    (names_of_mem_tokenize (hq.mem_tokenize n)).1
  rcases h.raises.blames with ⟨-, -, kind, -, rfl⟩ | ⟨-, hposition⟩
  · exact hmem 1
  · rw [hposition]
    exact hmem 0

/-- Spans are nested.  A program covers its source, and its statements lie in it one behind the
other.  Every node of it covers some of the tokens, from the first of them to the last, and its
parts lie inside, one behind the other.  All positions, those of the diagnostics among them, are in
the file that the source was given. -/
theorem parse_nested {source : String} {file? : Option String}
    (h : source.utf8ByteSize < UInt32.size) :
    (parse source file?).1.span = .between (file?.getD unnamedFile) 0 source.utf8ByteSize ∧
      (∀ s ∈ (parse source file?).1.body, s.site.span.Inside (parse source file?).1.span) ∧
      ((parse source file?).1.body.map (·.site.span)).Pairwise Span.Precedes ∧
      (∀ row ∈ (parse source file?).1.outline,
        row.node.Placed (file?.getD unnamedFile) (tokenize source file?)) ∧
      ∀ d ∈ (parse source file?).2.diagnostics.toList,
        d.position.file = file?.getD unnamedFile := by
  let file := file?.getD unnamedFile
  let program := (parse source file?).1
  let start := (Parser.ofScanner (.ofSource source file?)).reset
  let final := (Parser.topLevel #[] start).2
  have hfinal : start.cursor.Reaches final.cursor := (Parser.leads_topLevel #[] start).reaches
  have hend : final.current = Token.endOf file source.utf8ByteSize := by
    obtain ⟨-, -, heof, -⟩ :=
      Parser.exists_rounds_topLevel (p := start) #[] (Cursor.settled_ofSource source file?)
    exact eq_endOf_of_mem (hfinal.mem_tokenize 0) heof
  have hspan : program.span = .between file 0 source.utf8ByteSize := by
    have hfile : start.position.file = file :=
      (names_of_mem_tokenize ((Cursor.Reaches.refl _).mem_tokenize 0)).1
    show (⟨.at start.position.file 0, final.current.span.stop⟩ : Span) = _
    rw [hfile, hend]
    rfl
  have htiled := Cursor.tiled_ofSource h file?
  have hrow := (parse_built source file?).row
  obtain ⟨ms, last?, stop, hcourse⟩ := Parser.exists_course source file?
  refine ⟨hspan, fun s hs => ⟨?_, ?_⟩, hrow.pairwise htiled, fun row hrow => ?_, fun d hd => ?_⟩
  · rw [hspan]
    exact Nat.zero_le _
  · have hupper := (hrow.bounds htiled _ (List.mem_map_of_mem hs)).2
    have hstop : final.current.stop = program.span.upper := by rw [hspan, hend]; rfl
    rw [← hstop]
    exact hupper
  · obtain ⟨a, b, ha, hlies⟩ :=
      Node.Built.liesIn ((Program.each_iff_outline _).1 (parse_each_built source file?) row hrow)
    exact hlies.placed h ha
  · obtain ⟨q, hq, hreaches⟩ := hcourse.failed rfl d hd
    exact hq.names hreaches

theorem parse_nested_broken :
    "f((1 +2), -x) let \x7b".utf8ByteSize < UInt32.size ∧
      (parse "f((1 +2), -x) let \x7b" (some "a.x")).1.span = .between "a.x" 0 19 ∧
      (∀ row ∈ (parse "f((1 +2), -x) let \x7b" (some "a.x")).1.outline,
        row.node.Placed "a.x" (tokenize "f((1 +2), -x) let \x7b" (some "a.x"))) := by
  have h : "f((1 +2), -x) let \x7b".utf8ByteSize < UInt32.size := by decide
  obtain ⟨hspan, -, -, hplaced, -⟩ := @parse_nested _ (some "a.x") h
  exact ⟨h, hspan, hplaced⟩

end ExprLang
