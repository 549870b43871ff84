/- source: apps/solid-typefacts/src/session.rs; typefacts/src/v3.rs -/

import Mathlib.Data.List.Basic

namespace SolidChecker.Client

structure FileChange (P S : Type) where
  path : P
  source : S
  deleted : Bool
  version : ℕ

inductive ServiceCode
  | invalidRequest
  | projectMismatch
  | sessionClosed
  | generationMismatch
  | stateMismatch
  | updateFailed
  | invalidDemands
  | analysisFailed
  | analysisCancelled
  | assemblyFailed
  | sourcesFailed
  | modulesFailed
  deriving DecidableEq

/-- A lifecycle request. A state token is a number, zero for the empty one; `D` is the
demand run of one path. -/
inductive Request (P S D : Type)
  | open (generation : ℕ)
  | update (generation : ℕ) (changes : List (FileChange P S))
  | analyze (generation token : ℕ) (reset : Bool) (demands : List D) (removed : List P)
  | symbols (generation token : ℕ)
  | sources (generation : ℕ)
  | modules (generation : ℕ)

structure Process (P S : Type) where
  alive : Bool
  opened : Bool
  /-- The update requests it accepted after its open. -/
  updates : List (List (FileChange P S))
  generation : ℕ
  token : ℕ
  /-- The generation of the table the token names. -/
  tableGeneration : Option ℕ

structure Answer where
  generation : ℕ
  token : ℕ

namespace Process

variable {P S D : Type}

def started : Process P S := ⟨true, false, [], 1, 0, none⟩

def generationOf : Request P S D → ℕ
  | .open generation => generation
  | .update generation _ => generation
  | .analyze generation _ _ _ _ => generation
  | .symbols generation _ => generation
  | .sources generation => generation
  | .modules generation => generation

def lifecycle (process : Process P S) (request : Request P S D) :
    Except ServiceCode Answer × Process P S :=
  let here : Answer := ⟨process.generation, process.token⟩
  match request with
  | .open generation =>
    if generation ≠ process.generation then (.error .generationMismatch, process)
    else (.ok here, { process with opened := true })
  | .update generation changes =>
    if generation ≠ process.generation + 1 then (.error .generationMismatch, process)
    else
      (.ok ⟨process.generation + 1, process.token⟩,
        { process with
          generation := process.generation + 1
          updates := if process.opened then process.updates ++ [changes]
            else process.updates })
  | .analyze generation token reset demands removed =>
    if generation ≠ process.generation then (.error .generationMismatch, process)
    else if !reset && token != process.token then (.error .stateMismatch, process)
    else if !reset && demands.isEmpty && removed.isEmpty &&
        process.tableGeneration == some process.generation then
      -- nothing moved since the table the token names
      (.ok here, process)
    else
      (.ok ⟨process.generation, process.token + 1⟩,
        { process with
          token := process.token + 1
          tableGeneration := some process.generation })
  | .symbols generation token =>
    if generation ≠ process.generation then (.error .generationMismatch, process)
    else if token = 0 ∨ token ≠ process.token then (.error .stateMismatch, process)
    else (.ok here, process)
  | .sources generation | .modules generation =>
    if generation ≠ process.generation then (.error .generationMismatch, process)
    else (.ok here, process)

end Process

end SolidChecker.Client
