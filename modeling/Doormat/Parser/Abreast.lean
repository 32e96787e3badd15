import Doormat.Parser.Marks

/-! Callbacks up to the splitting of data into pieces, and one step run twice, beside
itself, with different marks and counts. -/
namespace Doormat.Parser

open Bytes

/-- One more callback on the stack of those before it: data goes on where the data
of the same element left off. -/
def push (stack : List Callback) (c : Callback) : List Callback :=
  match c, stack with
  | .data code m bytes, .data code' m' bytes' :: rest =>
      if m = m' then .data code m (bytes' ++ bytes) :: rest
      else .data code m bytes :: .data code' m' bytes' :: rest
  | c, stack => c :: stack

/-- All the callbacks of a list, the last on top. -/
def pushAll (stack cs : List Callback) : List Callback := cs.foldl push stack

@[simp] theorem pushAll_nil (stack : List Callback) : pushAll stack [] = stack := rfl

@[simp] theorem pushAll_cons (stack : List Callback) (c : Callback) (cs : List Callback) :
    pushAll stack (c :: cs) = pushAll (push stack c) cs := rfl

@[simp] theorem pushAll_append (stack cs cs' : List Callback) :
    pushAll stack (cs ++ cs') = pushAll (pushAll stack cs) cs' :=
  List.foldl_append

theorem push_push (stack : List Callback) (code code' : Nat) (m : Mark) (bytes bytes' : ByteString) :
    push (push stack (.data code m bytes)) (.data code' m bytes') =
      push stack (.data code' m (bytes ++ bytes')) := by
  rcases stack with _ | ⟨_ | ⟨last, set, before⟩ | _ | _, rest⟩
  case cons.data =>
    by_cases hm : m = set
    · simp [push, hm]
    · simp [push, hm]
  all_goals simp [push]

/-- The stack once the data behind the mark has been handed over, too. -/
def full (code : Nat) (stack : List Callback) : Option (Mark × ByteString) → List Callback
  | none => stack
  | some (m, bytes) => push stack (.data (m.code code) m bytes)

/-- Two runs abreast, the second of which may have handed over more of the data
behind the mark than the first. -/
structure Abreast (marked marked' : Option (Mark × ByteString)) (stack stack' : List Callback) :
    Prop where
  kinds : marked'.map Prod.fst = marked.map Prod.fst ∨
    marked.map Prod.fst = some .body ∧ marked' = none
  full : ∀ code, full code stack marked = full code stack' marked'

variable {marked marked' : Option (Mark × ByteString)} {stack stack' : List Callback}

namespace Abreast

theorem eq_of_none (h : Abreast none marked' stack stack') : marked' = none ∧ stack = stack' := by
  have hNone : marked' = none := by simpa using h.kinds
  subst hNone
  exact ⟨rfl, h.full 0⟩

theorem refl (marked : Option (Mark × ByteString)) (stack : List Callback) :
    Abreast marked marked stack stack := ⟨.inl rfl, fun _ => rfl⟩

/-- The mark is set in both. -/
theorem mark {m : Mark} (h : Abreast marked marked' stack stack')
    (hCur : marked.map Prod.fst = none ∨ marked.map Prod.fst = some m) :
    Abreast (some (marked.getD (m, []))) (some (marked'.getD (m, []))) stack stack' := by
  rcases marked with _ | ⟨set, bytes⟩
  · obtain ⟨rfl, rfl⟩ := h.eq_of_none
    exact refl _ _
  · obtain rfl : set = m := by simpa using hCur
    rcases marked' with _ | ⟨set', bytes'⟩
    · refine ⟨.inl rfl, fun code => ?_⟩
      have hFull := h.full code
      simp only [Parser.full] at hFull
      simp [Parser.full, ← hFull, push_push]
    · exact ⟨by simpa using h.kinds, h.full⟩

/-- One more byte is read in both. -/
theorem advance (h : Abreast marked marked' stack stack')
    (hKinds : marked'.map Prod.fst = marked.map Prod.fst) (ch : UInt8) :
    Abreast (marked.map fun m => (m.1, m.2 ++ [ch])) (marked'.map fun m => (m.1, m.2 ++ [ch]))
      stack stack' := by
  refine ⟨.inl (by simpa [Function.comp_def] using hKinds), fun code => ?_⟩
  have hFull := h.full code
  rcases marked with _ | ⟨m, bytes⟩ <;> rcases marked' with _ | ⟨m', bytes'⟩
  · exact hFull
  · simp at hKinds
  · simp at hKinds
  · obtain rfl : m' = m := by simpa using hKinds
    have hPush := congrArg (push · (.data (m'.code code) m' [ch])) hFull
    simpa [Parser.full, push_push] using hPush

end Abreast

/-! ### One program, run abreast -/

/-- Started with the mark of the body, the program sets it again or hands the body
over before it goes on. -/
def Prog.Renews : Prog → Prop
  | .next _ _ => False
  | .leave _ => False
  | .fail _ _ => True
  | .abort => True
  | .mark m _ => m = .body
  | .data _ m inclusive _ k => if m = .body then inclusive = false else k.Renews
  | .count _ _ k => k.Renews
  | .clearNread k => k.Renews
  | .assertNread _ k => k.Renews
  | .notify _ _ _ _ => False
  | .headersComplete _ _ => False
  | .messageComplete _ _ => False

/-- `nread` at the end of a step. -/
def Flow.nread : Flow → Nat
  | .next l => l.nread
  | .ret p _ => p.nread

/-- Two flows that differ in the mark and in the count only. -/
inductive Flow.Abreast (stack stack' : List Callback) : Flow → Flow → Prop
  | next {l l' : Locals} (hFields : l'.fields = l.fields) (hLoop : l'.loop = l.loop)
      (hMark : Parser.Abreast l.mark l'.mark stack stack')
      (hKinds : l'.mark.map Prod.fst = l.mark.map Prod.fst) : Flow.Abreast stack stack' (.next l) (.next l')
  | ret {p p' : HttpParser} {consumed : Bool} (hFields : p'.toFields = p.toFields)
      (hStack : stack = stack') : Flow.Abreast stack stack' (.ret p consumed) (.ret p' consumed)

/-- The second count after a step that took the counts `n` and `n'` to start with:
both were cleared, or the difference stays. -/
def CountsAbreast (n n' after after' : Nat) : Prop :=
  after = 0 ∧ after' = 0 ∨ after' + n = after + n' ∧ n ≤ after

/-- Nothing is counted after the count has been cleared. -/
theorem emit_cleared {ch : UInt8} {prog : Prog} {bound : Nat} {flow : Flow} {cs : List Callback}
    (hSound : prog.Sound bound (marked.map Prod.fst) true 0)
    (hEmit : prog.emit ch 0 marked = some (flow, cs)) : flow.nread = 0 := by
  induction prog generalizing marked cs with
  | next p loop =>
      obtain ⟨rfl, -⟩ := by simpa [Prog.emit] using hEmit
      rfl
  | leave p =>
      obtain ⟨rfl, -⟩ := by simpa [Prog.emit] using hEmit
      rfl
  | fail p e => cases hEmit
  | abort => cases hEmit
  | mark m k ih =>
      refine ih ?_ hEmit
      rcases marked with _ | ⟨set, bytes⟩
      · exact hSound.2
      · obtain rfl : set = m := by simpa using hSound.1
        exact hSound.2
  | data p m inclusive advance k ih =>
      rcases marked with _ | ⟨set, bytes⟩
      · exact ih (by simpa [Prog.Sound] using hSound) hEmit
      by_cases hm : set = m
      · simp only [Prog.emit, hm, ne_eq, not_true_eq_false, if_false] at hEmit
        obtain ⟨rest, hRest, -⟩ := Emission.prepend_eq_some.mp hEmit
        exact ih (by simpa [Prog.Sound, hm] using hSound) hRest
      · simp only [Prog.emit, ne_eq, hm, not_false_eq_true, if_true] at hEmit
        exact ih (by simpa [Prog.Sound, hm] using hSound) hEmit
  | count p v k ih => cases hSound.1
  | clearNread k ih => exact ih hSound hEmit
  | assertNread v k ih =>
      simp only [Prog.emit, Option.ite_none_right_eq_some] at hEmit
      exact ih hSound.2 hEmit.2
  | notify p c advance k ih =>
      obtain ⟨rest, hRest, -⟩ := Emission.prepend_eq_some.mp hEmit
      exact ih hSound.2 hRest
  | headersComplete p k ih =>
      obtain ⟨rest, hRest, -⟩ := Emission.prepend_eq_some.mp hEmit
      exact ih 0 hSound.2 hRest
  | messageComplete p k ih =>
      obtain ⟨rest, hRest, -⟩ := Emission.prepend_eq_some.mp hEmit
      exact ih _ hSound.2 hRest

theorem emit_abreast {ch : UInt8} {prog : Prog} {bound bound' n n' : Nat} {cleared : Bool}
    {flow : Flow} {cs : List Callback}
    (hSound : prog.Sound bound (marked.map Prod.fst) cleared n)
    (hSound' : prog.Sound bound' (marked'.map Prod.fst) cleared n')
    (hAbreast : Abreast marked marked' stack stack')
    (hRenews : marked.map Prod.fst = some .body → marked' = none → prog.Renews)
    (hLe : n ≤ n') (hBound : bound + n' ≤ httpMaxHeaderSize + n)
    (hEmit : prog.emit ch n marked = some (flow, cs)) :
    ∃ flow' cs', prog.emit ch n' marked' = some (flow', cs') ∧
      flow.Abreast (pushAll stack cs) (pushAll stack' cs') flow' ∧
      CountsAbreast n n' flow.nread flow'.nread := by
  induction prog generalizing n n' marked marked' stack stack' cleared cs with
  | next p loop =>
      obtain ⟨rfl, rfl⟩ := by simpa [Prog.emit] using hEmit
      have hKinds : marked'.map Prod.fst = marked.map Prod.fst :=
        hAbreast.kinds.resolve_right fun h => hRenews h.1 h.2
      refine ⟨_, _, rfl, .next rfl rfl (hAbreast.advance hKinds ch) ?_, .inr ⟨?_, le_refl _⟩⟩
      · simpa [Function.comp_def] using hKinds
      · exact Nat.add_comm _ _
  | leave p =>
      obtain ⟨rfl, rfl⟩ := by simpa [Prog.emit] using hEmit
      obtain rfl : marked = none := by simpa using hSound.1
      obtain ⟨rfl, rfl⟩ := hAbreast.eq_of_none
      exact ⟨.ret ⟨p, n', none⟩ true, [], rfl, .ret rfl rfl,
        .inr ⟨Nat.add_comm _ _, le_refl _⟩⟩
  | fail p e => cases hEmit
  | abort => cases hEmit
  | mark m k ih =>
      have hMarked : k.Sound bound ((some (marked.getD (m, []))).map Prod.fst) cleared n := by
        rcases marked with _ | ⟨set, bytes⟩
        · exact hSound.2
        · obtain rfl : set = m := by simpa using hSound.1
          exact hSound.2
      have hMarked' : k.Sound bound' ((some (marked'.getD (m, []))).map Prod.fst) cleared n' := by
        rcases marked' with _ | ⟨set, bytes⟩
        · exact hSound'.2
        · obtain rfl : set = m := by simpa using hSound'.1
          exact hSound'.2
      exact ih hMarked hMarked' (hAbreast.mark hSound.1) (by simp) hLe hBound hEmit
  | data p m inclusive advance k ih =>
      rcases marked with _ | ⟨set, bytes⟩
      · obtain ⟨rfl, rfl⟩ := hAbreast.eq_of_none
        exact ih (by simpa [Prog.Sound] using hSound) (by simpa [Prog.Sound] using hSound')
          hAbreast (by simp) hLe hBound hEmit
      by_cases hm : set = m
      · -- the first hands the data over in one piece, the second what is left of it
        subst hm
        simp only [Prog.emit, ne_eq, not_true_eq_false, if_false] at hEmit
        obtain ⟨rest, hRest, rfl⟩ := Emission.prepend_eq_some.mp hEmit
        have hk : k.Sound bound ((none : Option (Mark × ByteString)).map Prod.fst) cleared n := by
          simpa [Prog.Sound] using hSound
        have hFull := hAbreast.full p.statusCode
        rcases marked' with _ | ⟨set', bytes'⟩
        · obtain rfl : set = .body := by simpa using hAbreast.kinds
          obtain rfl : inclusive = false := by simpa [Prog.Renews] using hRenews rfl rfl
          obtain rfl : push stack (.data 0 .body bytes) = stack' := hFull
          have hRefl := Abreast.refl none (push stack (.data 0 .body bytes))
          have hRun := ih hk (by simpa [Prog.Sound] using hSound') hRefl (by simp) hLe hBound hRest
          exact hRun
        · obtain rfl : set' = set := by simpa using hAbreast.kinds
          have hk' : k.Sound bound' ((none : Option (Mark × ByteString)).map Prod.fst) cleared n' := by
            simpa [Prog.Sound] using hSound'
          have hPush :
              push stack (.data (set'.code p.statusCode) set' (if inclusive then bytes ++ [ch] else bytes)) =
                push stack' (.data (set'.code p.statusCode) set' (if inclusive then bytes' ++ [ch] else bytes')) := by
            cases inclusive
            · exact hFull
            · simpa [full, push_push] using congrArg (push · (.data (set'.code p.statusCode) set' [ch])) hFull
          obtain ⟨flow', cs', hEmit', hFlow, hCounts⟩ :=
            ih hk hk' ⟨.inl rfl, fun _ => hPush⟩ (by simp) hLe hBound hRest
          exact ⟨flow', .data (set'.code p.statusCode) set' (if inclusive then bytes' ++ [ch] else bytes') :: cs',
            by simp [Prog.emit, hEmit'], hFlow, hCounts⟩
      · -- the data of another mark
        simp only [Prog.emit, ne_eq, hm, not_false_eq_true, if_true] at hEmit
        have hk : k.Sound bound ((some (set, bytes)).map Prod.fst) cleared n := by
          simpa [Prog.Sound, hm] using hSound
        rcases marked' with _ | ⟨set', bytes'⟩
        · obtain rfl : set = .body := by simpa using hAbreast.kinds
          have hRest : k.Renews := by
            have hRenews := hRenews rfl rfl
            rwa [Prog.Renews, if_neg (Ne.symm hm)] at hRenews
          exact ih hk (by simpa [Prog.Sound] using hSound') hAbreast (fun _ _ => hRest) hLe hBound
            hEmit
        · obtain rfl : set' = set := by simpa using hAbreast.kinds
          obtain ⟨flow', cs', hEmit', hRest⟩ :=
            ih hk (by simpa [Prog.Sound, hm] using hSound') hAbreast (by simp) hLe hBound hEmit
          exact ⟨flow', cs', by simpa [Prog.emit, hm] using hEmit', hRest⟩
  | count p v k ih =>
      obtain ⟨-, hWithin, hk⟩ := hSound
      simp only [Prog.emit] at hEmit
      split at hEmit
      · cases hEmit
      · have hWithin : ¬ n' + v > httpMaxHeaderSize := by omega
        obtain ⟨flow', cs', hEmit', hFlow, hCounts⟩ :=
          ih hk hSound'.2.2 hAbreast hRenews (by omega) (by omega) hEmit
        refine ⟨flow', cs', by rw [Prog.emit, if_neg hWithin, hEmit'], hFlow, ?_⟩
        rcases hCounts with hZero | hDiff
        · exact .inl hZero
        · exact .inr ⟨by omega, by omega⟩
  | clearNread k ih =>
      obtain ⟨flow', cs', hEmit', hFlow, -⟩ :=
        ih hSound hSound' hAbreast hRenews (le_refl 0) (by omega) hEmit
      exact ⟨flow', cs', hEmit', hFlow,
        .inl ⟨emit_cleared hSound hEmit, emit_cleared hSound' hEmit'⟩⟩
  | assertNread v k ih =>
      obtain ⟨rfl, hk⟩ := hSound
      obtain ⟨rfl, hk'⟩ := hSound'
      simp only [Prog.emit, if_true] at hEmit ⊢
      exact ih hk hk' hAbreast hRenews hLe hBound hEmit
  | notify p c advance k ih =>
      obtain rfl : marked = none := by simpa using hSound.1
      obtain ⟨rfl, rfl⟩ := hAbreast.eq_of_none
      obtain ⟨rest, hRest, rfl⟩ := Emission.prepend_eq_some.mp hEmit
      obtain ⟨flow', cs', hEmit', hFlow, hCounts⟩ :=
        ih hSound.2 hSound'.2 (.refl none (push stack (.notify p c))) (by simp) hLe hBound hRest
      exact ⟨flow', .notify p c :: cs', by rw [Prog.emit, hEmit']; rfl, hFlow, hCounts⟩
  | headersComplete p k ih =>
      obtain rfl : marked = none := by simpa using hSound.1
      obtain ⟨rfl, rfl⟩ := hAbreast.eq_of_none
      obtain ⟨rest, hRest, rfl⟩ := Emission.prepend_eq_some.mp hEmit
      obtain ⟨flow', cs', hEmit', hFlow, hCounts⟩ :=
        ih 0 hSound.2 hSound'.2 (.refl none (push stack (.headersComplete p))) (by simp) hLe hBound
          hRest
      exact ⟨flow', .headersComplete p :: cs', by rw [Prog.emit, hEmit']; rfl, hFlow, hCounts⟩
  | messageComplete p k ih =>
      obtain rfl : marked = none := by simpa using hSound.1
      obtain ⟨rfl, rfl⟩ := hAbreast.eq_of_none
      obtain ⟨rest, hRest, rfl⟩ := Emission.prepend_eq_some.mp hEmit
      obtain ⟨flow', cs', hEmit', hFlow, -⟩ :=
        ih _ hSound.2 hSound'.2 (.refl none (push stack .messageComplete)) (by simp) (le_refl 0)
          (by omega) hRest
      exact ⟨flow', .messageComplete :: cs', by rw [Prog.emit, hEmit']; rfl, hFlow,
        .inl ⟨emit_cleared hSound.2 hRest, emit_cleared hSound'.2 hEmit'⟩⟩

end Doormat.Parser
