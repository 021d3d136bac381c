import Equium.Schemes.Machine
import Equium.Schemes.Paging

/-! @src scripts/indexer.ts, clients/website/src/lib/rpc.ts | name:Program transactions

    The RPC node's view of the program: a history of transactions that only grows, listed newest first,
    and the log line of a mined block. The history is kept oldest first. Signatures are unique, so a
    listed signature and its transaction are one record. -/

namespace Equium.Explorer
open Schemes

abbrev Signature := String

/-- A transaction of the program, as listed and as fetched. -/
structure Transaction where
  signature : Signature
  /-- the transaction failed -/
  err : Bool
  blockTime : Option ℕ
  logMessages : Option (List String)
  deriving DecidableEq

/-- What the log line of a mined block says. -/
structure MineLog where
  height : ℕ
  winner : String
  reward : ℕ
  deriving DecidableEq, Repr

/-- `getSignaturesForAddress`: the newest `limit` signatures in front of `after` and behind `before`. -/
def getSignaturesForAddress (chain : List Transaction) (limit : ℕ)
    (before after : Option Signature) : List Transaction :=
  (newerThan (·.signature) after (olderThan (·.signature) before chain.reverse)).take limit

/-! ### The log line -/

/-- `s.includes(needle)`. -/
def contains (s needle : List Char) : Bool := s.tails.any needle.isPrefixOf

/-- The characters of `\w`. -/
def isWord (c : Char) : Bool := c.isAlphanum || c = '_'

/-- The value of a string of digits. -/
def decimal (digits : List Char) : ℕ := digits.foldl (fun n c => 10 * n + (c.toNat - '0'.toNat)) 0

/-- `Number` of a string of digits: the nearest double. What is too large for one, from about
    `2 ^ 1024` on, is `Infinity` in the source and has no part here. -/
def number (digits : List Char) : ℕ := roundBits 53 (decimal digits)

/-- A literal, then the longest nonempty run of characters of one class. Each run is followed by a
    character outside its class, so the expression never backtracks. -/
def literalThen (literal : String) (p : Char → Bool) (s : List Char) :
    Option (List Char × List Char) :=
  match s.dropPrefix? literal.toList with
  | some rest => if rest.takeWhile p = [] then none else some (rest.takeWhile p, rest.dropWhile p)
  | none => none

/-- `/mined block (\d+) by ([\w]+) for (\d+)/` at the start of a string. -/
def matchHere (s : List Char) : Option MineLog := do
  let (height, s) ← literalThen "mined block " Char.isDigit s
  let (winner, s) ← literalThen " by " isWord s
  let (reward, _) ← literalThen " for " Char.isDigit s
  pure ⟨number height, String.ofList winner, number reward⟩

/-- The expression matched anywhere, leftmost match first. -/
def matchMined (s : List Char) : Option MineLog := s.tails.findSome? matchHere

/-- The first log line that names a mined block, if it has the expected form. -/
def Transaction.mineLog (t : Transaction) : Option MineLog :=
  match (t.logMessages.getD []).find? fun l => contains l.toList "equium: mined block".toList with
  | some line => matchMined line.toList
  | none => none

/-- The block a transaction mined; a failed transaction mined none. -/
def Transaction.mined (t : Transaction) : Option MineLog := if t.err then none else t.mineLog

example : matchMined "Program log: equium: mined block 12 by A1 for 25000000 base units".toList =
    some ⟨12, "A1", 25000000⟩ := by decide

end Equium.Explorer
