namespace LateBinding

/-- The name of a method, a member or an instance variable. -/
structure Symbol where
  text : String
deriving DecidableEq, Inhabited

namespace Symbol

/-- The hook that receives every call that finds no visible method. -/
def methodMissing : Symbol := ⟨"method_missing"⟩

/-- Asks a receiver whether it answers to a name. -/
def respondTo : Symbol := ⟨"respond_to?"⟩

/-- The hook by which a receiver claims names that it has no method for. -/
def respondToMissing : Symbol := ⟨"respond_to_missing?"⟩

/-- Calls a method by its name, whatever its visibility. -/
def send : Symbol := ⟨"send"⟩

/-- The same as `send`, under a name that user code does not shadow. -/
def underscoreSend : Symbol := ⟨"__send__"⟩

/-- Calls a public method by its name. -/
def publicSend : Symbol := ⟨"public_send"⟩

/-- Answers the class of the receiver. -/
def classOf : Symbol := ⟨"class"⟩

/-- Answers the singleton class of the receiver. -/
def singletonClass : Symbol := ⟨"singleton_class"⟩

end Symbol

end LateBinding
