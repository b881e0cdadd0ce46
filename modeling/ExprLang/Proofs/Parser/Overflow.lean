import ExprLang.Parser.Levels
import ExprLang.Proofs.Parser.Reading

/-!
# Parses that nest too deep

`Parsed.reported` lists the diagnostics of a parse, the one it fails with last.  A parse
*overflows* if the first diagnostic it reports is that expressions are nested too deep.
Whatever runs after an overflow keeps that diagnostic first (`Overflows.of_leads`).

`p.Meets n r s` says what becomes of a parse that needs `n` expressions inside each
other where `p` stands: it ends in `s` if the limit leaves room for them, and else it
overflows.  Parses one after the other need as many as the one that needs the most
(`Meets.andThen`), and a nested parse needs one more than the parse inside
(`Meets.nested`).
-/

namespace ExprLang

open Parse

variable {α β : Type}

/-! ## The first diagnostic -/

/-- The diagnostics of a parse, the one it fails with included. -/
def Parsed.reported : Parsed α → List Diagnostic
  | .ok _ q => q.diagnostics.toList
  | .error d q => q.diagnostics.toList ++ [d]

/-- Is the first diagnostic behind those in `before` that of too deep a nesting? -/
def Overflows (before : Array Diagnostic) (reported : List Diagnostic) : Prop :=
  ∃ position, before.toList ++ [⟨.nestingTooDeep Parser.depthLimit, position⟩] <+: reported

theorem Parsed.diagnostics_prefix_reported (r : Parsed α) :
    r.parser.diagnostics.toList <+: r.reported := by
  cases r with
  | ok a q => exact List.prefix_rfl
  | error d q => exact List.prefix_append _ _

/-- What was reported first stays first. -/
theorem Overflows.mono {before : Array Diagnostic} {ds es : List Diagnostic}
    (h : Overflows before ds) (hp : ds <+: es) : Overflows before es := by
  obtain ⟨position, hd⟩ := h
  exact ⟨position, hd.trans hp⟩

theorem Overflows.of_leads {before : Array Diagnostic} {q : Parser} {r : Parsed β}
    (h : Overflows before q.diagnostics.toList) (hl : q.Leads r.parser) :
    Overflows before r.reported :=
  (h.mono hl.diagnostics).mono r.diagnostics_prefix_reported

/-! ## Parses that need some room -/

namespace Parser

variable {p q : Parser} {m n : Nat}

/-- How many more expressions a parser may go inside of. -/
def room (p : Parser) : Nat := depthLimit - p.depth

theorem room_enter (p : Parser) : p.enter.room = p.room - 1 := Nat.sub_add_eq _ _ _

theorem Ahead.room_eq {ts : List Token} (h : p.Ahead ts q) : q.room = p.room :=
  congrArg (depthLimit - ·) h.depth_eq

/-- A parse that needs `n` expressions inside each other from `p` on ends in `s` if there
is room for them, and else it overflows. -/
structure Meets (p : Parser) (n : Nat) (r s : Parsed α) : Prop where
  /-- Within the room it ends as it should. -/
  eq : n ≤ p.room → r = s
  /-- Beyond the room it overflows. -/
  overflows : p.room < n → Overflows p.diagnostics r.reported

theorem Meets.of_eq {r s : Parsed α} (h : r = s) (hn : n ≤ p.room) : p.Meets n r s :=
  ⟨fun _ => h, fun hlt => absurd hlt (Nat.not_lt.2 hn)⟩

/-- A parse that does what another one does ends where that one ends. -/
theorem Meets.trans {r s t : Parsed α} (h : p.Meets m r s) (k : p.Meets n s t) :
    p.Meets (max m n) r t := by
  by_cases hm : m ≤ p.room
  · rw [h.eq hm]
    exact ⟨fun hn => k.eq (by omega), fun hn => k.overflows (by omega)⟩
  · exact ⟨fun hn => absurd hn (by omega), fun _ => h.overflows (Nat.not_le.1 hm)⟩

/-- It makes no difference from which token of a run the room is counted. -/
theorem Meets.of_ahead {ts : List Token} {r s : Parsed α} (h : q.Meets n r s)
    (ha : p.Ahead ts q) : p.Meets n r s := by
  have hroom := ha.room_eq
  have hd := ha.diagnostics_eq
  exact ⟨fun hn => h.eq (hroom ▸ hn), fun hn => hd ▸ h.overflows (hroom ▸ hn)⟩

/-- One expression further in there is room for one less. -/
theorem Meets.of_enter {ts : List Token} {r s : Parsed α} (h : q.enter.Meets n r s)
    (ha : p.Ahead ts q) (hp : 0 < p.room) : p.Meets (n + 1) r s := by
  have hq := ha.room_eq
  have hroom := q.room_enter
  have hm : q.Meets (n + 1) r s :=
    ⟨fun hn => h.eq (by omega), fun hn => h.overflows (by omega)⟩
  exact hm.of_ahead ha

/-- Parses one after the other need the room of the one that needs the most. -/
theorem Meets.andThen {x : Parsed α} {y s : Parsed β} {a : α} {r : Parser}
    (hx : p.Meets m x (.ok a r))
    (hover : Overflows p.diagnostics x.reported → Overflows p.diagnostics y.reported)
    (hy : x = .ok a r → p.Meets n y s) : p.Meets (max m n) y s := by
  by_cases hm : m ≤ p.room
  · have hy := hy (hx.eq hm)
    exact ⟨fun h => hy.eq (by omega), fun h => hy.overflows (by omega)⟩
  · exact ⟨fun h => absurd h (by omega), fun _ => hover (hx.overflows (Nat.not_le.1 hm))⟩

theorem Meets.bind {x : Parse α} {f : α → Parse β} {a : α} {r : Parser} {s : Parsed β}
    (hx : p.Meets m (x.run q) (.ok a r)) (steady : ∀ a, Steady (f a))
    (hf : p.Meets n ((f a).run r) s) : p.Meets (max m n) ((x >>= f).run q) s := by
  refine hx.andThen ?_ ?_
  · intro h
    rw [EStateM.run_bind]
    cases hr : x.run q with
    | ok b t =>
      rw [hr] at h
      exact h.of_leads (steady b t)
    | error d t =>
      rw [hr] at h
      exact h
  · intro hr
    rw [EStateM.run_bind, hr]
    exact hf

/-- A parse that goes on with steps that need no room. -/
theorem Meets.bind_eq {x : Parse α} {f : α → Parse β} {a : α} {r : Parser} {s : Parsed β}
    (hx : p.Meets n (x.run q) (.ok a r)) (steady : ∀ a, Steady (f a))
    (hf : (f a).run r = s) : p.Meets n ((x >>= f).run q) s := by
  rw [← Nat.max_zero n]
  exact hx.bind steady (.of_eq hf (Nat.zero_le _))

/-- A nested parse needs room for itself as well. -/
theorem Meets.nested {x : Parse α} {a : α}
    (h : 0 < p.room → p.Meets n (x.run p.enter) (.ok a q.enter)) (hn : 0 < n) :
    p.Meets n ((Parse.nested x).run p) (.ok a q) := by
  by_cases hp : p.depth < depthLimit
  · have h := h (Nat.sub_pos_of_lt hp)
    refine ⟨fun hle => ?_, fun hlt => ?_⟩
    · rw [run_nested hp, h.eq hle]
      rfl
    · have ho := h.overflows hlt
      rw [run_nested hp]
      cases hx : x.run p.enter with
      | ok b r =>
        rw [hx] at ho
        exact ho
      | error d r =>
        rw [hx] at ho
        exact ho
  · have hroom : p.room = 0 := Nat.sub_eq_zero_of_le (Nat.not_lt.1 hp)
    refine ⟨fun hle => absurd hle (by omega), fun _ => ?_⟩
    rw [run_nested_of_le (Nat.not_lt.1 hp)]
    exact ⟨_, List.prefix_rfl⟩

end Parser

end ExprLang
