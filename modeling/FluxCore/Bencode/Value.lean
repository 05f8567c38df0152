import FluxCore.Utp.Packet

/-!
# Values

`ValueBase`, the values of bencode and of JSON; bencode has no `Bool` and no `Null`. A dictionary is
an ordered map: its members are kept in the order of their keys.
-/

namespace FluxCore.Bencode

open Utp (Bytes)

inductive ValueBase where
  | string (s : Bytes)
  | integer (i : Int)
  | bool (b : Bool)
  | null
  | list (l : List ValueBase)
  | dict (d : List (Bytes × ValueBase))
  deriving Inhabited

abbrev Dict := List (Bytes × ValueBase)

namespace Dict

def get (d : Dict) (key : Bytes) : Option ValueBase := List.lookup key d

/-- `downcast<String>(dict->get(key))`. -/
def getString (d : Dict) (key : Bytes) : Option Bytes :=
  match Dict.get d key with
  | some (.string s) => some s
  | _ => none

def getInteger (d : Dict) (key : Bytes) : Option Int :=
  match Dict.get d key with
  | some (.integer i) => some i
  | _ => none

def getList (d : Dict) (key : Bytes) : Option (List ValueBase) :=
  match Dict.get d key with
  | some (.list l) => some l
  | _ => none

def getDict (d : Dict) (key : Bytes) : Option Dict :=
  match Dict.get d key with
  | some (.dict d) => some d
  | _ => none

/-- Sets the member `key`. -/
def put : Dict → Bytes → ValueBase → Dict
  | [], key, v => [(key, v)]
  | (k, w) :: d, key, v =>
    if key = k then (key, v) :: d
    else if key < k then (key, v) :: (k, w) :: d
    else (k, w) :: put d key v

end Dict

section Structure

mutual

/-- How deep the containers that are not empty are nested in one another. -/
def ValueBase.nesting : ValueBase → Nat
  | .list l => nestingElements l
  | .dict d => nestingMembers d
  | _ => 0

def nestingElements : List ValueBase → Nat
  | [] => 0
  | v :: vs => max (v.nesting + 1) (nestingElements vs)

def nestingMembers : List (Bytes × ValueBase) → Nat
  | [] => 0
  | (_, v) :: d => max (v.nesting + 1) (nestingMembers d)

end

mutual

/-- `P` holds of the value and of all values that it is made of. -/
def ValueBase.Everywhere (P : ValueBase → Prop) : ValueBase → Prop
  | .list l => P (.list l) ∧ EverywhereElements P l
  | .dict d => P (.dict d) ∧ EverywhereMembers P d
  | v => P v

def EverywhereElements (P : ValueBase → Prop) : List ValueBase → Prop
  | [] => True
  | v :: vs => v.Everywhere P ∧ EverywhereElements P vs

def EverywhereMembers (P : ValueBase → Prop) : List (Bytes × ValueBase) → Prop
  | [] => True
  | (_, v) :: d => v.Everywhere P ∧ EverywhereMembers P d

end

/-- The members are in the order of their keys, each key once. -/
def Dict.Sorted (d : Dict) : Prop := d.Pairwise fun a b => a.1 < b.1

/-- A member behind all others is put at the end. -/
theorem Dict.put_of_lt {d : Dict} {key : Bytes} {v : ValueBase} (h : ∀ a ∈ d, a.1 < key) :
    Dict.put d key v = d ++ [(key, v)] := by
  induction d with
  | nil => rfl
  | cons a d ih =>
    have hlt : a.1 < key := h a (List.mem_cons_self ..)
    have hne : key ≠ a.1 := fun heq => List.lt_irrefl key (heq ▸ hlt)
    have hnlt : ¬key < a.1 := fun hlt' => List.lt_irrefl key (List.lt_trans hlt' hlt)
    rw [Dict.put, if_neg hne, if_neg hnlt, ih fun b hb => h b (List.mem_cons_of_mem _ hb)]
    rfl

/-- A dictionary is what its members are when they are put one after another. -/
theorem Dict.Sorted.foldl_put {d d' : Dict} (h : Dict.Sorted (d ++ d')) :
    d'.foldl (fun d a => Dict.put d a.1 a.2) d = d ++ d' := by
  induction d' generalizing d with
  | nil => exact (List.append_nil d).symm
  | cons a d' ih =>
    have hlt : ∀ b ∈ d, b.1 < a.1 := fun b hb =>
      (List.pairwise_append.mp h).2.2 b hb a (List.mem_cons_self ..)
    rw [List.foldl_cons, Dict.put_of_lt hlt]
    have happend : d ++ a :: d' = d ++ [a] ++ d' := by simp
    rw [happend] at h ⊢
    exact ih h

end Structure

/-- The bytes of a name. -/
def name (s : String) : Bytes := s.toUTF8.toList

end FluxCore.Bencode
