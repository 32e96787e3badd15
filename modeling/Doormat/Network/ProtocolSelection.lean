import Doormat.Library.Bytes

/-! `client_select_next_proto_cb`: the list of protocols that a server offers is searched for those
that the client speaks, in the order of its preference. -/
namespace Doormat.Network

open Bytes

/-- How a loop over the offered bytes ends: it has not ended yet, it has read outside of them, or
it returns. -/
inductive Outcome (α : Type)
  | running
  | outside
  | returned (value : α)
deriving DecidableEq

/-- What `out` and `outlen` are set to; `out` is an offset into the offered bytes. -/
structure Selection where
  out : Nat
  outlen : UInt8
deriving DecidableEq

/-- The bytes that are selected. -/
def Selection.name (s : Selection) (input : ByteString) : ByteString :=
  (input.drop s.out).take s.outlen.toNat

def NGHTTP2_H2_ALPN : ByteString := 2 :: ofString "h2"
def NGHTTP2_H2_16_ALPN : ByteString := 5 :: ofString "h2-16"
def NGHTTP2_H2_14_ALPN : ByteString := 5 :: ofString "h2-14"
def HTTP1_1_ALPN : ByteString := 8 :: ofString "http/1.1"
def HTTP1_0_ALPN : ByteString := 8 :: ofString "http/1.0"

/-- `std::equal` of a key and the bytes from `p` on, up to the first difference. -/
def equalAt (input : ByteString) : ByteString → Nat → Outcome Bool
  | [], _ => .returned true
  | k :: key, p =>
      match input[p]? with
      | none => .outside
      | some b => if k = b then equalAt input key (p + 1) else .returned false

/-- The loop of `select_proto`, from `p` on. -/
def selectProtoFrom (input key : ByteString) : Nat → Nat → Outcome (Option Selection)
  | 0, _ => .running
  | fuel + 1, p =>
      if p + key.length ≤ input.length then
        match equalAt input key p, input[p]? with
        | .returned true, some length => .returned (some { out := p + 1, outlen := length })
        | .returned false, some length => selectProtoFrom input key fuel (p + length.toNat + 1)
        | _, _ => .outside
      else .returned none

def selectProto (input key : ByteString) (fuel : Nat) : Outcome (Option Selection) :=
  selectProtoFrom input key fuel 0

/-- `||` of two searches. -/
def Outcome.orElse (first second : Outcome (Option Selection)) : Outcome (Option Selection) :=
  match first with
  | .returned none => second
  | other => other

def selectH2 (input : ByteString) (fuel : Nat) : Outcome (Option Selection) :=
  ((selectProto input NGHTTP2_H2_ALPN fuel).orElse
    (selectProto input NGHTTP2_H2_16_ALPN fuel)).orElse
      (selectProto input NGHTTP2_H2_14_ALPN fuel)

def selectH1 (input : ByteString) (fuel : Nat) : Outcome (Option Selection) :=
  (selectProto input HTTP1_1_ALPN fuel).orElse (selectProto input HTTP1_0_ALPN fuel)

/-- `client_select_next_proto_cb`. Without a selection it returns `SSL_TLSEXT_ERR_NOACK`. -/
def clientSelectNextProtoCb (input : ByteString) (fuel : Nat) : Outcome (Option Selection) :=
  (selectH2 input fuel).orElse (selectH1 input fuel)

/-- A name behind its length. -/
def entry (name : ByteString) : ByteString := UInt8.ofNat name.length :: name

/-- The bytes of a well-formed list of names. -/
def encode (names : List ByteString) : ByteString := names.flatMap entry

/-- The names that are selected, in the order of preference. -/
def preferences : List ByteString :=
  [ofString "h2", ofString "h2-16", ofString "h2-14", ofString "http/1.1", ofString "http/1.0"]

/-! ### The loop -/

section Loop

variable {input key : ByteString}

theorem equalAt_eq {p : Nat} (hIn : p + key.length ≤ input.length) :
    equalAt input key p = .returned (key.isPrefixOf (input.drop p)) := by
  induction key generalizing p with
  | nil => simp [equalAt]
  | cons k key ih =>
      rw [List.length_cons] at hIn
      have hp : p < input.length := by omega
      rw [equalAt, List.getElem?_eq_getElem hp, List.drop_eq_getElem_cons hp]
      by_cases hEq : k = input[p]
      · simp only [hEq, if_true, List.isPrefixOf_cons_cons, beq_self_eq_true, Bool.true_and]
        exact ih (by omega)
      · simp only [hEq, if_false, List.isPrefixOf_cons_cons, beq_eq_false_iff_ne.mpr hEq,
          Bool.false_and]

/-- One step of the loop. -/
theorem selectProtoFrom_succ (fuel : Nat) {p : Nat} (hKey : key ≠ []) :
    selectProtoFrom input key (fuel + 1) p =
      if hIn : p + key.length ≤ input.length then
        have hp : p < input.length := by
          have hSome := List.length_pos_of_ne_nil hKey
          omega
        if key <+: input.drop p then .returned (some { out := p + 1, outlen := input[p] })
        else selectProtoFrom input key fuel (p + input[p].toNat + 1)
      else .returned none := by
  have hSome := List.length_pos_of_ne_nil hKey
  rw [selectProtoFrom]
  split
  · next hIn =>
      have hp : p < input.length := by omega
      rw [equalAt_eq hIn, List.getElem?_eq_getElem hp]
      by_cases hPrefix : key <+: input.drop p
      · have hTrue := List.isPrefixOf_iff_prefix.mpr hPrefix
        simp [hTrue, hPrefix]
      · have hFalse : key.isPrefixOf (input.drop p) = false := by
          rw [← Bool.not_eq_true, List.isPrefixOf_iff_prefix]
          exact hPrefix
        simp [hFalse, hPrefix]
  · rfl

/-- The loop comes to an end within the offered bytes. -/
theorem selectProtoFrom_returns (hKey : key ≠ []) {fuel p : Nat} (hFuel : 0 < fuel)
    (hEnough : input.length < p + fuel) : ∃ r, selectProtoFrom input key fuel p = .returned r := by
  have hSome := List.length_pos_of_ne_nil hKey
  induction fuel generalizing p with
  | zero => omega
  | succ fuel ih =>
      rw [selectProtoFrom_succ fuel hKey]
      split
      · split
        · exact ⟨_, rfl⟩
        · apply ih <;> omega
      · exact ⟨_, rfl⟩

end Loop

/-! ### Well-formed lists -/

@[simp] theorem encode_nil : encode [] = [] := rfl

@[simp] theorem encode_cons (name : ByteString) (names : List ByteString) :
    encode (name :: names) = entry name ++ encode names := rfl

@[simp] theorem length_entry (name : ByteString) : (entry name).length = name.length + 1 := rfl

/-- An entry that begins as another does is that entry. -/
theorem entry_prefix_iff {name other rest : ByteString} (hName : name.length < 256)
    (hOther : other.length < 256) : entry name <+: entry other ++ rest ↔ name = other := by
  constructor
  · intro hPrefix
    obtain ⟨hLength, hRest⟩ := List.cons_prefix_cons.mp hPrefix
    have hSame : name.length = other.length := by
      have hNat := congrArg UInt8.toNat hLength
      simpa [Nat.mod_eq_of_lt hName, Nat.mod_eq_of_lt hOther] using hNat
    exact List.IsPrefix.eq_of_length_le (List.prefix_of_prefix_length_le hRest
      (List.prefix_append other rest) (Nat.le_of_eq hSame)) (Nat.le_of_eq hSame.symm)
  · intro hSame
    rw [hSame]
    exact List.prefix_append _ _

/-- Where a name stands first in a list: behind the entries before it and its length. -/
def offsetOf (name : ByteString) (names : List ByteString) : Nat :=
  (encode (names.takeWhile (· ≠ name))).length + 1

/-- What a search for a name in a list is to find. -/
def found (name : ByteString) (names : List ByteString) (start : Nat) : Option Selection :=
  if names.contains name then
    some { out := start + offsetOf name names, outlen := UInt8.ofNat name.length }
  else none

theorem found_eq (name : ByteString) (names : List ByteString) (start : Nat) :
    found name names start = if name ∈ names then
      some { out := start + offsetOf name names, outlen := UInt8.ofNat name.length } else none := by
  simp [found]

theorem length_entry_le {name : ByteString} {names : List ByteString} (h : name ∈ names) :
    (entry name).length ≤ (encode names).length := by
  induction names with
  | nil => cases h
  | cons first rest ih =>
      rw [encode_cons, List.length_append]
      rcases List.mem_cons.mp h with rfl | hRest
      · omega
      · have hLe := ih hRest
        omega

theorem offsetOf_self (name : ByteString) (rest : List ByteString) :
    offsetOf name (name :: rest) = 1 := by
  simp [offsetOf]

theorem offsetOf_of_ne {name first : ByteString} (h : name ≠ first) (rest : List ByteString) :
    offsetOf name (first :: rest) = (entry first).length + offsetOf name rest := by
  have hKept : (first :: rest).takeWhile (· ≠ name) = first :: rest.takeWhile (· ≠ name) :=
    List.takeWhile_cons_of_pos (by simpa using Ne.symm h)
  rw [offsetOf, hKept, encode_cons, List.length_append, offsetOf, Nat.add_assoc]

theorem found_self (name : ByteString) (rest : List ByteString) (start : Nat) :
    found name (name :: rest) start =
      some { out := start + 1, outlen := UInt8.ofNat name.length } := by
  simp [found, offsetOf_self]

/-- The first entry is passed over. -/
theorem found_of_ne {name first : ByteString} (h : name ≠ first) (rest : List ByteString)
    (start : Nat) :
    found name (first :: rest) start = found name rest (start + (entry first).length) := by
  simp only [found_eq, List.mem_cons, h, false_or, offsetOf_of_ne h, Nat.add_assoc]

/-- From the start of an entry the loop finds the first entry that is the key. -/
theorem selectProtoFrom_encode {name : ByteString} (hName : name.length < 256)
    {names : List ByteString} (hNames : ∀ n ∈ names, n.length < 256) (before : ByteString)
    {fuel : Nat} (hFuel : (encode names).length < fuel) :
    selectProtoFrom (before ++ encode names) (entry name) fuel before.length =
      .returned (found name names before.length) := by
  have hKey : entry name ≠ [] := List.cons_ne_nil _ _
  obtain ⟨fuel, rfl⟩ : ∃ f, fuel = f + 1 := ⟨fuel - 1, by omega⟩
  induction names generalizing before fuel with
  | nil =>
      rw [selectProtoFrom_succ fuel hKey, dif_neg]
      · rfl
      · rw [encode_nil, List.append_nil, length_entry]
        omega
  | cons first rest ih =>
      obtain ⟨hFirst, hRest⟩ := List.forall_mem_cons.mp hNames
      rw [encode_cons, List.length_append, length_entry] at hFuel
      rw [selectProtoFrom_succ fuel hKey]
      by_cases hIn : before.length + (entry name).length ≤
          (before ++ encode (first :: rest)).length
      · have hDrop : (before ++ encode (first :: rest)).drop before.length =
            entry first ++ encode rest := by
          rw [List.drop_left, encode_cons]
        have hLength : ∀ h, getElem (before ++ encode (first :: rest)) before.length h =
            UInt8.ofNat first.length := by
          intro h
          simp [encode_cons, entry]
        rw [dif_pos hIn]
        simp only [hDrop, hLength, entry_prefix_iff hName hFirst]
        by_cases hSame : name = first
        · rw [if_pos hSame, ← hSame, found_self]
        · -- the next entry begins behind this one
          have hNext : before.length + (UInt8.ofNat first.length).toNat + 1 =
              (before ++ entry first).length := by
            simp [Nat.mod_eq_of_lt hFirst, Nat.add_assoc]
          have hAppend : before ++ encode (first :: rest) =
              (before ++ entry first) ++ encode rest := by
            rw [encode_cons, List.append_assoc]
          obtain ⟨fuel, rfl⟩ : ∃ f, fuel = f + 1 := ⟨fuel - 1, by omega⟩
          rw [if_neg hSame, hNext, hAppend, found_of_ne hSame, ← List.length_append]
          exact ih hRest (before ++ entry first) fuel (by omega)
      · have hNone : name ∉ first :: rest := by
          intro hMem
          have hLe := length_entry_le hMem
          rw [List.length_append] at hIn
          omega
        rw [dif_neg hIn, found_eq, if_neg hNone]

/-- A search in a well-formed list. -/
theorem selectProto_encode {name : ByteString} (hName : name.length < 256)
    {names : List ByteString} (hNames : ∀ n ∈ names, n.length < 256) {fuel : Nat}
    (hFuel : (encode names).length < fuel) :
    selectProto (encode names) (entry name) fuel = .returned (found name names 0) :=
  selectProtoFrom_encode hName hNames [] hFuel

/-- A name stands in the list at its offset. -/
theorem drop_offsetOf {name : ByteString} {names : List ByteString} (h : name ∈ names) :
    ∃ rest, (encode names).drop (offsetOf name names) = name ++ rest := by
  induction names with
  | nil => cases h
  | cons first names ih =>
      by_cases hSame : name = first
      · rw [← hSame, offsetOf_self]
        exact ⟨encode names, rfl⟩
      · obtain ⟨rest, hDrop⟩ := ih ((List.mem_cons.mp h).resolve_left hSame)
        rw [offsetOf_of_ne hSame, encode_cons, ← List.drop_drop, List.drop_left]
        exact ⟨rest, hDrop⟩

/-- The bytes that a search selects are the name. -/
theorem name_found {name : ByteString} (hName : name.length < 256) {names : List ByteString}
    (h : name ∈ names) :
    Selection.name { out := 0 + offsetOf name names, outlen := UInt8.ofNat name.length }
      (encode names) = name := by
  obtain ⟨rest, hDrop⟩ := drop_offsetOf h
  have hLength : (UInt8.ofNat name.length).toNat = name.length := by
    simp [Nat.mod_eq_of_lt hName]
  rw [Selection.name, hLength, Nat.zero_add, hDrop, List.take_left]

/-! ### The order of preference -/

theorem Outcome.orElse_assoc (first second third : Outcome (Option Selection)) :
    (first.orElse second).orElse third = first.orElse (second.orElse third) := by
  cases first with
  | running => rfl
  | outside => rfl
  | returned r => cases r <;> rfl

/-- The callback searches for the five names one after another. -/
theorem clientSelectNextProtoCb_eq (input : ByteString) (fuel : Nat) :
    clientSelectNextProtoCb input fuel =
      preferences.foldr (fun name => Outcome.orElse (selectProto input (entry name) fuel))
        (.returned none) := by
  have hLast : ∀ last : Outcome (Option Selection), last.orElse (.returned none) = last := by
    intro last
    cases last with
    | running => rfl
    | outside => rfl
    | returned r => cases r <;> rfl
  simp only [clientSelectNextProtoCb, selectH2, selectH1, Outcome.orElse_assoc, preferences,
    List.foldr_cons, List.foldr_nil, hLast]
  rfl

/-- Searches that all come to an end come to an end together. -/
theorem orElse_returns {names : List ByteString} {search : ByteString → Outcome (Option Selection)}
    (h : ∀ name, ∃ r, search name = .returned r) :
    ∃ r, names.foldr (fun name => Outcome.orElse (search name)) (.returned none) = .returned r := by
  induction names with
  | nil => exact ⟨none, rfl⟩
  | cons name names ih =>
      obtain ⟨r, hSearch⟩ := h name
      rw [List.foldr_cons, hSearch]
      cases r with
      | none => exact ih
      | some s => exact ⟨some s, rfl⟩

/-- The first name that is found is taken. -/
theorem orElse_found {wanted names : List ByteString}
    {search : ByteString → Outcome (Option Selection)}
    (h : ∀ name ∈ wanted, search name = .returned (found name names 0)) :
    wanted.foldr (fun name => Outcome.orElse (search name)) (.returned none) =
      .returned ((wanted.find? (· ∈ names)).bind fun name => found name names 0) := by
  induction wanted with
  | nil => rfl
  | cons name wanted ih =>
      obtain ⟨hName, hRest⟩ := List.forall_mem_cons.mp h
      rw [List.foldr_cons, hName, List.find?_cons]
      by_cases hMem : name ∈ names
      · simp [hMem, found_eq, Outcome.orElse]
      · simp only [found_eq name, hMem, if_false, decide_false, Outcome.orElse]
        exact ih hRest

/-- Whatever the server offers, the callback comes to an end without reading outside of it; from
a well-formed list it selects the first of the preferred names that is an entry, and none exactly
if none is. -/
theorem next_proto_selected (input : ByteString) {fuel : Nat} (hFuel : input.length < fuel) :
    (∃ r, clientSelectNextProtoCb input fuel = .returned r) ∧
      ∀ names : List ByteString, (∀ n ∈ names, n.length < 256) → input = encode names →
        match preferences.find? (· ∈ names) with
        | none => clientSelectNextProtoCb input fuel = .returned none
        | some name => ∃ s, clientSelectNextProtoCb input fuel = .returned (some s) ∧
            s.out = offsetOf name names ∧ s.outlen.toNat = name.length ∧ s.name input = name := by
  rw [clientSelectNextProtoCb_eq]
  constructor
  · apply orElse_returns
    intro name
    exact selectProtoFrom_returns (List.cons_ne_nil _ _) (by omega) (by omega)
  · intro names hNames hInput
    subst hInput
    have hShort : ∀ name ∈ preferences, name.length < 256 := by decide
    rw [orElse_found fun name hName => selectProto_encode (hShort name hName) hNames hFuel]
    cases hFind : preferences.find? (· ∈ names) with
    | none => rfl
    | some name =>
        have hName := hShort name (List.mem_of_find?_eq_some hFind)
        have hMem : name ∈ names := by simpa using List.find?_some hFind
        refine ⟨{ out := 0 + offsetOf name names, outlen := UInt8.ofNat name.length }, ?_, ?_, ?_,
          name_found hName hMem⟩
        · simp [found, hMem]
        · simp
        · simp [Nat.mod_eq_of_lt hName]

/-- A server that offers HTTP/1.1 before HTTP/2. -/
theorem next_proto_selected_h2 :
    ∃ s, clientSelectNextProtoCb (encode [ofString "http/1.1", ofString "h2"]) 13 =
      .returned (some s) ∧ s.name (encode [ofString "http/1.1", ofString "h2"]) = ofString "h2" := by
  have hFuel : (encode [ofString "http/1.1", ofString "h2"]).length < 13 := by decide
  have hSelected := (next_proto_selected _ hFuel).2 _ (by decide) rfl
  have hFind : preferences.find? (· ∈ [ofString "http/1.1", ofString "h2"]) =
      some (ofString "h2") := by decide
  rw [hFind] at hSelected
  obtain ⟨s, hReturned, -, -, hName⟩ := hSelected
  exact ⟨s, hReturned, hName⟩

end Doormat.Network
