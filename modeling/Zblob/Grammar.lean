import Zblob.Ranges
import Zblob.Lib.Machine

/-!
The grammar of the `ranges` parameter in both directions, among other parameters, and with
the widths of the parser's arithmetic checked.
-/

set_option autoImplicit false

namespace Zblob

def parseSpansMachine (chunkCount maxChunks : Nat) :
    List (Nat × Nat) → Nat → List (List Char) → Option (Result (List (Nat × Nat)))
  | out, _, [] => some (if out.isEmpty then .error (.invalidRanges "no spans") else .ok out)
  | out, total, span :: rest =>
    let text := debugStr (String.ofList span)
    if out.length ≥ maxRangeSpans then
      some (.error (.invalidRanges (s!"more than {maxRangeSpans} spans")))
    else
      match parseSpan span with
      | .error e => some (.error e)
      | .ok (start, stop) =>
        if start ≥ stop then some (.error (.invalidRanges ("empty or inverted span " ++ text)))
        else if stop > chunkCount then
          some (.error (.invalidRanges ("span " ++ text ++ s!" exceeds chunk count {chunkCount}")))
        else if out.getLast?.any fun prev => start < prev.2 then
          some (.error (.invalidRanges "spans must be sorted and disjoint"))
        else do
          let len ← Machine.sub stop start
          let total ← Machine.add 64 total len
          if total > maxChunks then
            some (.error (.invalidRanges (s!"more than {maxChunks} chunks requested in one query")))
          else parseSpansMachine chunkCount maxChunks (out ++ [(start, stop)]) total rest

def parseRangesMachine (params : String) (chunkCount maxChunks : Nat) :
    Option (Result (List (Nat × Nat))) :=
  match rangesSpec params.toList with
  | none => some (.error (.invalidRanges "missing ranges parameter"))
  | some spec => parseSpansMachine chunkCount maxChunks [] 0 (spec.splitOn ',')

/-- The running total stays below both caps, and a span below `u32`. -/
theorem parseSpansMachine_eq {n cap total : Nat} {out : List (Nat × Nat)}
    (spans : List (List Char)) (hn : n ≤ u32Max)
    (hcap : cap ≤ u32Max) (htotal : total ≤ cap) :
    parseSpansMachine n cap out total spans = some (parseSpans n cap out total spans) := by
  unfold u32Max at hn hcap
  induction spans generalizing out total with
  | nil => rfl
  | cons span rest ih =>
    simp only [parseSpansMachine, parseSpans]
    split
    · rfl
    cases parseSpan span with
    | error e => rfl
    | ok r =>
      simp only
      split
      · rfl
      split
      · rfl
      split
      · rfl
      rw [Machine.sub_eq (by omega), Option.bind_eq_bind, Option.bind_some,
        Machine.add_eq (by omega),
        Option.bind_some]
      split
      · rfl
      · exact ih (by omega)

theorem parseRangesMachine_eq (params : String) (n cap : UInt32) :
    parseRangesMachine params n.toNat cap.toNat = some (parseRanges params n.toNat cap.toNat) := by
  have hn : n.toNat ≤ u32Max := Nat.le_of_lt_succ n.toNat_lt
  have hcap : cap.toNat ≤ u32Max := Nat.le_of_lt_succ cap.toNat_lt
  unfold parseRangesMachine parseRanges
  cases rangesSpec params.toList with
  | none => rfl
  | some spec => exact parseSpansMachine_eq _ hn hcap (Nat.zero_le _)

structure Unknown (param : String) : Prop where
  single : '&' ∉ param.toList
  other : rangesKey.isPrefixOf param.toList = false

def joinParams (params : List String) : String := String.intercalate "&" params

theorem rangesSpec_among {before after : List String} {text : List Char} (htext : '&' ∉ text)
    (hb : ∀ p ∈ before, Unknown p) (ha : ∀ p ∈ after, Unknown p) :
    rangesSpec (joinParams (before ++ String.ofList (rangesKey ++ text) :: after)).toList =
      some text := by
  have hkey : '&' ∉ rangesKey := by decide
  have hskip : ∀ (ps : List String) (spec : Option (List Char)), (∀ p ∈ ps, Unknown p) →
      (ps.map String.toList).foldl (fun spec pair =>
        if rangesKey.isPrefixOf pair then some (pair.drop rangesKey.length)
          else spec) spec = spec := by
    intro ps
    induction ps with
    | nil => intro spec _; rfl
    | cons p ps ih =>
      intro spec hps
      rw [List.map_cons, List.foldl_cons, (hps p List.mem_cons_self).other]
      exact ih spec fun q hq => hps q (List.mem_cons_of_mem p hq)
  have hsplit : (joinParams (before ++ String.ofList (rangesKey ++ text) :: after)).toList.splitOn
      '&' =
      before.map String.toList ++ (rangesKey ++ text) :: after.map String.toList := by
    rw [joinParams, String.toList_intercalate]
    have hmap : (before ++ String.ofList (rangesKey ++ text) :: after).map String.toList =
        before.map String.toList ++ (rangesKey ++ text) :: after.map String.toList := by simp
    rw [hmap]
    apply List.splitOn_intercalate
    · intro l hl
      rcases List.mem_append.mp hl with hl | hl
      · obtain ⟨p, hp, rfl⟩ := List.mem_map.mp hl
        exact (hb p hp).single
      · rcases List.mem_cons.mp hl with rfl | hl
        · simp [hkey, htext]
        · obtain ⟨p, hp, rfl⟩ := List.mem_map.mp hl
          exact (ha p hp).single
    · simp
  rw [rangesSpec, hsplit, List.foldl_append, hskip before none hb,
    List.foldl_cons, hskip after _ ha]
  simp

theorem Servable.parsed_among {n cap : Nat} {rs : List (Nat × Nat)}
    (h : Servable n cap rs) (hn : n ≤ u32Max)
    {before after : List String} (hb : ∀ p ∈ before, Unknown p) (ha : ∀ p ∈ after, Unknown p) :
    parseRanges (joinParams (before ++ ("ranges=" ++ formatRanges rs) :: after)) n cap =
      .ok rs := by
  have hrs := fun r hr => (h.inside r hr).1
  have hkey : "ranges=" ++ formatRanges rs = String.ofList
      (rangesKey ++ (formatRanges rs).toList) := by
    rw [String.ofList_append, String.ofList_toList]
    rfl
  have hcomma : ∀ l ∈ rs.map renderSpan, ',' ∉ l := by
    intro l hl
    obtain ⟨r, -, rfl⟩ := List.mem_map.mp hl
    exact not_mem_renderSpan r (by decide) (by decide)
  have hamp : '&' ∉ (formatRanges rs).toList := by
    rw [formatRanges, String.toList_ofList]
    exact ampersand_not_mem_formatFrom [] rs (by simp)
  have hasked : rs.map renderSpan ≠ [] := by simpa using h.asked
  rw [parseRanges, hkey, rangesSpec_among hamp hb ha, formatRanges_toList hrs]
  simp only [List.splitOn_intercalate ',' hcomma hasked]
  exact parseSpans_render hn rfl (by simpa using h)

/-- What the parser returns keeps every limit, every list that keeps them is parsed back from
its rendering, whatever other parameters stand around it, and no text makes the parser's
arithmetic overflow. -/
theorem range_grammar (n cap : UInt32) :
    (∀ params rs, parseRanges params n.toNat cap.toNat = .ok rs → Servable n.toNat cap.toNat rs) ∧
    (∀ rs, Servable n.toNat cap.toNat rs → ∀ before after : List String,
      (∀ p ∈ before ++ after, Unknown p) →
      parseRanges (joinParams (before ++ ("ranges=" ++ formatRanges rs) :: after))
      n.toNat cap.toNat = .ok rs) ∧
    ∀ params, parseRangesMachine params n.toNat cap.toNat = some
      (parseRanges params n.toNat cap.toNat) := by
  have hn : n.toNat ≤ u32Max := Nat.le_of_lt_succ n.toNat_lt
  refine ⟨fun params rs => parseRanges_servable, fun rs h before after hother => ?_,
    fun params => ?_⟩
  · exact h.parsed_among hn (fun p hp => hother p (List.mem_append_left _ hp))
      fun p hp => hother p (List.mem_append_right _ hp)
  · exact parseRangesMachine_eq params n cap

example : parseRanges "v=2&ranges=0-3,7&x" 4294967295 100 = .ok [(0, 3), (7, 8)] :=
  by decide +kernel

end Zblob
