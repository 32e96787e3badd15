import Doormat.Parser.Cut
import Doormat.Parser.Logic

/-! What a listener gathers from a list of callbacks. A listener that does not see where
data is split gathers the same from a stream however it is cut. -/
namespace Doormat.Parser

open Bytes

variable {α : Type} {G : Gatherer α} {good : α → Prop} {ch : UInt8}
  {post : Fields → Loop → Option Mark → α → Prop} {a : α}

namespace Gatherer

/-- What is gathered from the callbacks of a list. -/
def gather (G : Gatherer α) (a : α) (cs : List Callback) : α := cs.foldl G.next a

@[simp] theorem gather_nil : G.gather a [] = a := rfl

@[simp] theorem gather_cons (c : Callback) (cs : List Callback) :
    G.gather a (c :: cs) = G.gather (G.next a c) cs := rfl

@[simp] theorem gather_append (cs cs' : List Callback) :
    G.gather a (cs ++ cs') = G.gather (G.gather a cs) cs' :=
  List.foldl_append

/-- What is gathered does not depend on the splitting of data. -/
def Splits (G : Gatherer α) : Prop :=
  ∀ m bytes bytes' a, G.data m bytes' (G.data m bytes a) = G.data m (bytes ++ bytes') a

theorem gather_push (hSplits : G.Splits) (stack : List Callback) (c : Callback) :
    G.gather a (push stack c).reverse = G.next (G.gather a stack.reverse) c := by
  have hOther : G.gather a (c :: stack).reverse = G.next (G.gather a stack.reverse) c := by
    simp
  cases c with
  | data code m bytes =>
      cases stack with
      | nil => exact hOther
      | cons top rest =>
          cases top with
          | data code' m' bytes' =>
              by_cases hm : m = m'
              · subst hm
                simp [push, next, hSplits m bytes' bytes]
              · simp [push, hm]
          | notify | headersComplete | messageComplete => exact hOther
  | notify | headersComplete | messageComplete => exact hOther

theorem gather_pushAll (hSplits : G.Splits) (stack cs : List Callback) :
    G.gather a (pushAll stack cs).reverse = G.gather (G.gather a stack.reverse) cs := by
  induction cs generalizing stack with
  | nil => rfl
  | cons c cs ih => rw [pushAll_cons, ih, gather_push hSplits, gather_cons]

/-- What the data behind the mark adds. -/
theorem gather_full (hSplits : G.Splits) (code : Nat) (stack : List Callback)
    (marked : Option (Mark × ByteString)) :
    G.gather a (full code stack marked).reverse = G.ahead (G.gather a stack.reverse) marked := by
  cases marked with
  | none => rfl
  | some marked => exact gather_push hSplits stack _

theorem gather_leftOver (code : Nat) (marked : Option (Mark × ByteString)) :
    G.gather a (leftOver code marked) = G.ahead a marked := by
  cases marked with
  | none => rfl
  | some marked => rfl

/-- Where the cut stream has handed over all its data, both have gathered the same. -/
theorem gather_cut (hSplits : G.Splits) {x y : Locals} {cs cs' : List Callback} {extra : Nat}
    (hCut : Cut x y (pushAll [] cs) (pushAll [] cs') extra) (hMark : y.mark = none) :
    G.gather a cs' = G.ahead (G.gather a cs) x.mark := by
  have hFull := congrArg (fun stack => G.gather a stack.reverse) (hCut.marks.full 0)
  simp only [gather_full hSplits, gather_pushAll hSplits, hMark] at hFull
  exact hFull.symm

end Gatherer

/-- What a flow leads to, with `a` gathered. -/
def Flow.Arrives (G : Gatherer α) (post : Fields → Loop → Option Mark → α → Prop) (a : α) : Flow → Prop
  | .next l => post l.fields l.loop (l.mark.map Prod.fst) (G.ahead a l.mark)
  | .ret p _ => post p.toFields .outer none a

/-- The rule for a step whose callbacks all succeed. -/
theorem Prog.emit_arrives {prog : Prog} {n : Nat} {marked : Option (Mark × ByteString)} {flow : Flow}
    {cs : List Callback} (hWp : prog.wp G good ch post (marked.map Prod.fst) (G.ahead a marked))
    (hEmit : prog.emit ch n marked = some (flow, cs)) : flow.Arrives G post (G.gather a cs) := by
  have hNone : ∀ {marked : Option (Mark × ByteString)}, marked.map Prod.fst = none → marked = none := by
    intro marked h
    simpa using h
  induction prog generalizing a n marked cs with
  | next p loop =>
      cases hEmit
      show post p loop _ (G.ahead a (marked.map fun m => (m.1, m.2 ++ [ch])))
      rw [G.ahead_concat, Option.map_map]
      exact hWp
  | leave p =>
      cases hEmit
      obtain rfl := hNone hWp.1
      exact hWp.2
  | fail | abort => cases hEmit
  | mark m k ih =>
      have hSet : k.wp G good ch post ((some (marked.getD (m, []))).map Prod.fst)
          (G.ahead a (some (marked.getD (m, [])))) := by
        cases marked with
        | none => exact hWp
        | some set => exact hWp
      exact ih hSet hEmit
  | data p m inclusive advance k ih =>
      cases marked with
      | none =>
          have hUnset : k.wp G good ch post ((none : Option (Mark × ByteString)).map Prod.fst) (G.ahead a none) := by
            simpa [Prog.wp] using hWp
          exact ih hUnset hEmit
      | some set =>
          obtain ⟨set, bytes⟩ := set
          simp only [Prog.wp, Option.map_some, Option.some.injEq] at hWp
          by_cases hm : set = m
          · subst hm
            rw [if_pos rfl] at hWp
            simp only [Prog.emit, ne_eq, not_true_eq_false, if_false] at hEmit
            obtain ⟨rest, hRest, rfl⟩ := Emission.prepend_eq_some.mp hEmit
            have hUnset : k.wp G good ch post ((none : Option (Mark × ByteString)).map Prod.fst)
                (G.next a (.data (set.code p.statusCode) set (if inclusive then bytes ++ [ch] else bytes))) := by
              cases inclusive with
              | true => simpa [Gatherer.next, Gatherer.ahead] using hWp.2
              | false => simpa [Gatherer.next, Gatherer.ahead] using hWp.2
            rw [Gatherer.gather_cons]
            exact ih hUnset hRest
          · rw [if_neg hm] at hWp
            simp only [Prog.emit, ne_eq, hm, not_false_eq_true, if_true] at hEmit
            have hSame : k.wp G good ch post ((some (set, bytes)).map Prod.fst) (G.ahead a (some (set, bytes))) := hWp
            exact ih hSame hEmit
  | count p v k ih =>
      simp only [Prog.emit] at hEmit
      split at hEmit
      · cases hEmit
      · exact ih hWp hEmit
  | clearNread k ih => exact ih hWp hEmit
  | assertNread v k ih =>
      simp only [Prog.emit] at hEmit
      split at hEmit
      · exact ih hWp hEmit
      · cases hEmit
  | notify p c advance k ih =>
      obtain ⟨rest, hRest, rfl⟩ := Emission.prepend_eq_some.mp hEmit
      obtain rfl := hNone hWp.1
      have hNext : k.wp G good ch post ((none : Option (Mark × ByteString)).map Prod.fst)
          (G.next a (.notify p c)) := hWp.2.2
      rw [Gatherer.gather_cons]
      exact ih hNext hRest
  | headersComplete p k ih =>
      obtain ⟨rest, hRest, rfl⟩ := Emission.prepend_eq_some.mp hEmit
      obtain rfl := hNone hWp.1
      have hNext : (k 0).wp G good ch post ((none : Option (Mark × ByteString)).map Prod.fst)
          (G.next a (.headersComplete p)) := hWp.2.2
      rw [Gatherer.gather_cons]
      exact ih 0 hNext hRest
  | messageComplete p k ih =>
      obtain ⟨rest, hRest, rfl⟩ := Emission.prepend_eq_some.mp hEmit
      obtain rfl := hNone hWp.1
      have hNext : (k (HttpParser.init .both).toFields).wp G good ch post ((none : Option (Mark × ByteString)).map Prod.fst)
          (G.next a .messageComplete) := hWp.2.2
      rw [Gatherer.gather_cons]
      exact ih (HttpParser.init .both).toFields hNext hRest

end Doormat.Parser
