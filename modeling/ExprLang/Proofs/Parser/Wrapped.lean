import ExprLang.Proofs.Parser.Excerpt

/-!
# Programs as bodies of functions

A source that is parsed without a diagnostic is parsed to the same statements where it is put
between the braces of a function (`parse_wrapped`).  The loop over the statements of a block
stops at a brace and not at the end of the source, and goes on differently behind a failure,
but it reads what is written in the same way.  Only the limit is reached sooner, because the
body is inside one more expression.

The tokens of the source write its statements, and so they do further on
(`exists_written_further`).  Between braces they write a block, and what is written is parsed.
-/

namespace ExprLang

open Utf8

variable {b : String} {file? : Option String}

/-! ## Further on in a source -/

theorem Token.agree_move (h : Position → Position) (ts : List Token) :
    Token.Agree ts (ts.map (·.move h)) := by
  rw [Token.Agree, List.map_map]
  rfl

/-- The tokens of a source that is parsed without a diagnostic write its statements, and at their
places behind other characters they write the same statements, at these places. -/
theorem exists_written_further (before : List Char)
    (hquiet : (parse b file?).2.diagnostics = #[]) :
    let shift := Position.shift (width before)
    ∃ ts last need, tokenize b file? = ts ++ [last] ∧ last.kind = .eof ∧
      need ≤ Parser.depthLimit ∧ Stmt.ListWritten (parse b file?).1.body ts need ∧
      Stmt.ListWritten ((parse b file?).1.body.map (·.move shift)) (ts.map (·.move shift))
        need := by
  intro shift
  obtain ⟨ts, need, last, htokens, hlast, hw, hneed, -⟩ := exists_written hquiet
  obtain ⟨ss, hss, -⟩ := hw.replaced (Token.agree_move shift ts)
  have hmoved := Cursor.moved_ofScanner before b.toList file?
  rw [String.ofList_toList] at hmoved
  let q := Parser.ofScanner ⟨file?.getD unnamedFile, encode b.toList, width before⟩
  -- There the tokens write some statements, and they are parsed to these.
  have hq : q.reset.cursor.tokens = ts.map (·.move shift) ++ [last.move shift] := by
    calc q.reset.cursor.tokens
        = (Cursor.ofScanner (.ofSource b file?)).tokens.map (·.move shift) :=
          hmoved.tokens_eq.symm
      _ = (tokenize b file?).map (·.move shift) := by rw [Cursor.tokens_ofScanner]; rfl
      _ = ts.map (·.move shift) ++ [last.move shift] := by
          rw [htokens, List.map_append, List.map_singleton]
  obtain ⟨r, hr⟩ := Parser.exists_reads hss.ne_eof hq
  have hlast' : (last.move shift).kind = .eof := hlast
  have htop := (Parser.topLevel_meets hss hlast' #[] hr).eq hneed
  rw [EStateM.Result.ok.injEq] at htop
  -- They are also parsed to the statements of the source, further on.
  have hbody := (Parser.program_moved (p := .ofScanner (.ofSource b file?)) (q := q) hmoved).1
  have hsame : ss = (parse b file?).1.body.map (·.move shift) := by
    calc ss = (#[] ++ ss.toArray).toList := by simp
      _ = q.program.1.body := congrArg Array.toList htop.1.symm
      _ = (parse b file?).1.body.map (·.move shift) := hbody
  exact ⟨ts, last, need, htokens, hlast, hneed, hw, hsame ▸ hss⟩

/-! ## Between the braces of a function -/

/-- The tokens of a function without parameters whose body is the source `b`. -/
theorem tokenize_wrapped (b : String) (file? : Option String) :
    ∃ k o c u v last, (k.kind = .kwFn ∧ o.kind = .openParen ∧ c.kind = .closeParen ∧
        u.kind = .openCurly) ∧ v.kind = .closeCurly ∧ last.kind = .eof ∧
      tokenize ("fn()\x7b" ++ b ++ "\x7d") file? =
        (k :: o :: c :: u :: ((Munch.tokens (file?.getD unnamedFile) b.toList).map
          (·.move (.shift 5)) ++ [v])) ++ [last] := by
  let file := file?.getD unnamedFile
  have hopen : ('\x7b', .openCurly) ∈ Munch.signs := by decide
  have hclose : ('\x7d', .closeCurly) ∈ Munch.signs := by decide
  have hapart : Munch.Apart "fn()\x7b".toList (b ++ "\x7d").toList :=
    Munch.apart_concat hopen "fn()".toList _
  have hsize : "fn()\x7b".utf8ByteSize = 5 := by decide
  have hkinds : (Munch.tokens file "fn()\x7b".toList).map (·.kind) =
      [.kwFn, .openParen, .closeParen, .openCurly] := by
    rw [Munch.tokens, Munch.place_kinds]
    decide +kernel
  simp only [List.map_eq_cons_iff, List.map_eq_nil_iff] at hkinds
  obtain ⟨k, _, hfront, hk, o, _, rfl, ho, c, _, rfl, hc, u, _, rfl, hu, rfl⟩ := hkinds
  obtain ⟨v, hv, hbrace⟩ := Munch.exists_tokens_concat hclose file b.toList
  have hback := tokenize_eq_append_endOf (b ++ "\x7d") file?
  rw [String.toList_append, show "\x7d".toList = ['\x7d'] from rfl, hbrace] at hback
  rw [String.append_assoc, tokenize_append hapart, hfront, hback, hsize]
  refine ⟨k, o, c, u, v.move (.shift 5),
    (Token.endOf file (b ++ "\x7d").utf8ByteSize).move (.shift 5), ⟨hk, ho, hc, hu⟩, hv, rfl, ?_⟩
  rw [List.map_append, List.map_append]
  rfl

/-- Between the braces of a function without parameters a source is parsed to the statements it is
parsed to by itself, if that gives no diagnostic.  The loop of a block and the loop of a program
agree on it, and only the limit may be reached, because the body is inside one more expression. -/
theorem parse_wrapped (hquiet : (parse b file?).2.diagnostics = #[]) :
    let wrapped := parse ("fn()\x7b" ++ b ++ "\x7d") file?
    let body := (parse b file?).1.body.map (·.move (.shift 5))
    ∃ ts last need, tokenize b file? = ts ++ [last] ∧
      Stmt.ListWritten (parse b file?).1.body ts need ∧
      (need = Parser.depthLimit ∧ (∃ position, wrapped.2.diagnostics[0]? =
          some ⟨.nestingTooDeep Parser.depthLimit, position⟩) ∨
        need < Parser.depthLimit ∧ wrapped.2.diagnostics = #[] ∧
          ∃ site functionSite blockSite, wrapped.1.body =
            [.expression site (.function functionSite [] (.mk blockSite body))]) := by
  intro wrapped body
  obtain ⟨ts, last, need, htokens, -, hneed, hw, hws⟩ :=
    exists_written_further "fn()\x7b".toList hquiet
  rw [show width "fn()\x7b".toList = 5 by decide] at hws
  obtain ⟨k, o, c, u, v, stop, ⟨hk, ho, hc, hu⟩, hv, hstop, hwrapped⟩ := tokenize_wrapped b file?
  rw [← eq_tokens_of_tokenize htokens] at hwrapped
  -- The shifted tokens write a block between the braces, and with it a function.
  have hblock := Block.Written.mk hu hws hv
  have hfunction := Expr.Written.function hk ho .nil hc hblock
  have hprogram := Program.Written.mk hfunction.statement hstop
  rw [List.nil_append, ← hwrapped] at hprogram
  obtain ⟨hfits, hover⟩ := hprogram.parse_meets
  refine ⟨ts, last, need, htokens, hw, ?_⟩
  rcases Nat.eq_or_lt_of_le hneed with heq | hlt
  · exact .inl ⟨heq, (hover (by omega)).getElem?_zero⟩
  · obtain ⟨hparse, hnone⟩ := hfits hlt
    exact .inr ⟨hlt, hnone, _, _, _, congrArg Program.body hparse⟩

theorem parse_wrapped_call :
    let b := "let a = 1; f(a)"
    (parse b none).2.diagnostics = #[] ∧
      ∃ site functionSite blockSite, (parse ("fn()\x7b" ++ b ++ "\x7d") none).1.body =
        [.expression site (.function functionSite []
          (.mk blockSite ((parse b none).1.body.map (·.move (.shift 5)))))] := by
  intro b
  have hquiet : (parse b none).2.diagnostics = #[] := by decide +kernel
  obtain ⟨_, _, _, -, -, ⟨-, position, hdeep⟩ | ⟨-, -, hbody⟩⟩ := parse_wrapped hquiet
  · have hnone : (parse ("fn()\x7b" ++ b ++ "\x7d") none).2.diagnostics[0]? = none := by
      decide +kernel
    rw [hnone] at hdeep
    cases hdeep
  · exact ⟨hquiet, hbody⟩

end ExprLang
