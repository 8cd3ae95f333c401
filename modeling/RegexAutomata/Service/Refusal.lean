/-
Why a request is refused.
-/
import RegexAutomata.Alphabet
import RegexAutomata.Json.Reader
import RegexAutomata.Regex.Error
import RegexAutomata.Text.Encodings

namespace RegexAutomata.Service

/-- What is wrong with a request. -/
inductive Refusal where
  | undecodable (e : DecodeError)
  | malformed (fault : Json.Fault) (document : Text) (position : Nat)
  | integerTooLong (digits : Nat)
  | notObject
  | missingRegex
  | regexTooLong (limit : Int)
  | badInputs
  | badAlphabet
  | badSymbol (v : Json.Value)
  | badAutomaton
  | parse (e : Regex.ParseError)
  /-- the answer holds surrogates and has no bytes -/
  | unencodable (position length : Nat) (first : CodePoint)
deriving DecidableEq

def Refusal.message : Refusal → Text
  | undecodable e => e.message
  | malformed fault document position =>
    "Invalid JSON body: " ++ fault.describe document position
  | integerTooLong digits =>
    "Exceeds the limit (" ++ Text.ofNat Json.Numeral.maxIntegerDigits
      ++ " digits) for integer string conversion: value has " ++ Text.ofNat digits
      ++ " digits; use sys.set_int_max_str_digits() to increase the limit"
  | notObject => "Request body must be a JSON object"
  | missingRegex => "Missing regex parameter"
  | regexTooLong limit => "Regex is longer than " ++ Text.ofInt limit ++ " characters"
  | badInputs => "inputs must be a list of strings"
  | badAlphabet => "alphabet must be a string or a list of characters"
  | badSymbol v => Alphabet.refusal v
  | badAutomaton => "automaton must be 'nfa' or 'dfa'"
  | parse e => e.message
  | unencodable position length first => Utf8.surrogatesRefused position length first

/-- Why the service failed to look at a request. -/
inductive Failure where
  | bodyTooLarge
  /-- the body nests too deep -/
  | noRoom (what : Json.Exhaustion)
deriving DecidableEq

def Failure.message : Failure → Text
  | bodyTooLarge =>
    "Server error: Request body exceeded settings.DATA_UPLOAD_MAX_MEMORY_SIZE."
  | noRoom what => "Server error: " ++ what.message

end RegexAutomata.Service
