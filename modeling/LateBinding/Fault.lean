import LateBinding.Value

namespace LateBinding

/-- Why a foreign object does not carry out a call. -/
inductive ForeignFault where
  | unknownIdentifier (name : String)
  | notInvocable (typeName member : String)
  | arity (expected actual : Nat)
  | unsupportedType (typeName : String)
  /-- The embedding program gives its own reason. -/
  | host (reason : String)
deriving DecidableEq

def ForeignFault.message : ForeignFault → String
  | unknownIdentifier name => "unknown identifier: " ++ name
  | notInvocable typeName member => s!"member '{member}' of {typeName} is not invocable"
  | arity expected actual => s!"arity mismatch: expected {expected}, got {actual}"
  | unsupportedType typeName => "unsupported argument type: " ++ typeName
  | host reason => reason

/-- Why a receiver has no method to offer for a name. -/
inductive Unavailable where
  | undefined
  | privateMethod
  | protectedMethod
deriving DecidableEq

/-- The kinds of fault that a caller tells apart. -/
inductive Fault.Kind where
  | noMethod
  | type
  | argument
  | name
  | interrupt
  | internal
deriving DecidableEq

/-- The cause for which a call or a definition fails. -/
inductive Fault where
  /-- The receiver, described in words, has no such method to offer. -/
  | noMethod (receiver : String) (name : Symbol) (args : List Value) (reason : Unavailable)
  /-- Something that is not a module was to be included. -/
  | notAModule (given : String)
  /-- A module was to become a superclass, or to get one. -/
  | notAClass (given : String)
  | cyclicInclude
  | cyclicSuperclass (given : String)
  /-- The method to be removed is not in the table of its owner. -/
  | notDefined (name : Symbol) (owner : String)
  /-- The owner has no method of this name, own or inherited. -/
  | undefinedIn (name : Symbol) (owner : String)
  /-- Instances of the class cannot have a singleton class. -/
  | singletonForbidden (className : String)
  /-- The class permits a singleton class that its instance has no place for. -/
  | singletonPlaceless (className : String)
  /-- No record has this number. -/
  | unknownClass (id : ClassId)
  | wrongArity (given : Nat) (expected : String)
  /-- A value that is to name a method, shown as in diagnostics, does not. -/
  | notAName (given : String)
  /-- The hook for missing methods was called without the name of one. -/
  | noNameGiven
  | noBlockGiven
  /-- A method that only marks a name as undefined was to be run. -/
  | tombstoneInvoked (name : Symbol)
  /-- The receiver lacks even the hook for missing methods. -/
  | hookMissing (receiver : String) (name : Symbol)
  /-- A site that calls methods was asked whether the receiver responds. -/
  | notARespondSite (site : Nat)
  | chainOverLimit (site entries limit : Nat)
  | foreignFailed (typeName : String) (member : Symbol) (cause : ForeignFault)
  /-- The embedding program gave up in the middle of a call. -/
  | foreignAborted (typeName : String) (member : Symbol)
  | interrupted (reason : String)
  /-- A type fault that user code raises. -/
  | raisedType (reason : String)
  /-- An argument fault that user code raises. -/
  | raisedArgument (reason : String)
  /-- A name fault that user code raises. -/
  | raisedName (name : Symbol) (reason : String)
  /-- An internal fault that user code raises. -/
  | raisedInternal (reason : String)
deriving DecidableEq

namespace Fault

/-- How callers treat a fault. -/
def kind : Fault → Kind
  | noMethod .. => .noMethod
  | notAModule _ | notAClass _ | singletonForbidden _ | notAName _ | foreignFailed ..
  | foreignAborted .. | raisedType _ => .type
  | cyclicInclude | cyclicSuperclass _ | wrongArity .. | noNameGiven | noBlockGiven
  | raisedArgument _ => .argument
  | notDefined .. | undefinedIn .. | raisedName .. => .name
  | interrupted _ => .interrupt
  | singletonPlaceless _ | unknownClass _ | tombstoneInvoked _ | hookMissing .. | notARespondSite _
  | chainOverLimit .. | raisedInternal _ => .internal

/-- An internal fault, after which the runtime cannot be relied on. -/
def isFatal (f : Fault) : Bool := f.kind = .internal

/-- The name that a name fault is about. -/
def subject? : Fault → Option Symbol
  | notDefined name _ | undefinedIn name _ | raisedName name _ => some name
  | _ => none

/-- What is wrong, without the words that mark a fault of its kind. -/
def detail : Fault → String
  | noMethod receiver name _ .undefined => s!"undefined method '{name.text}' for {receiver}"
  | noMethod receiver name _ .privateMethod =>
    s!"private method '{name.text}' called for {receiver}"
  | noMethod receiver name _ .protectedMethod =>
    s!"protected method '{name.text}' called for {receiver}"
  | notAModule given => s!"wrong argument type {given} (expected Module)"
  | notAClass given => s!"superclass must be a Class ({given} given)"
  | cyclicInclude => "cyclic include detected"
  | cyclicSuperclass given => s!"superclass {given} would create a cycle"
  | notDefined name owner => s!"method '{name.text}' not defined in {owner}"
  | undefinedIn name owner => s!"undefined method '{name.text}' for class '{owner}'"
  | singletonForbidden className => "can't define singleton for an instance of " ++ className
  | singletonPlaceless className =>
    className ++ " has no singleton slot but is not flagged immediate"
  | unknownClass id => s!"unknown class id {id.index}"
  | wrongArity given expected => s!"wrong number of arguments (given {given}, expected {expected})"
  | notAName given => given ++ " is not a symbol nor a string"
  | noNameGiven => "no method name given"
  | noBlockGiven => "no block given"
  | tombstoneInvoked name => s!"attempted to invoke undefined method '{name.text}'"
  | hookMissing receiver name =>
    s!"method_missing not found for {receiver} while dispatching '{name.text}'"
  | notARespondSite site => s!"call site {site} is not a respond_to? site"
  | chainOverLimit site entries limit =>
    s!"call site {site} holds {entries} entries (limit {limit})"
  | foreignFailed typeName member cause =>
    s!"foreign call {typeName}.{member.text} failed: {cause.message}"
  | foreignAborted typeName member => s!"foreign call {typeName}.{member.text} aborted in host"
  | interrupted reason => reason
  | raisedType reason | raisedArgument reason | raisedName _ reason | raisedInternal reason => reason

def message (f : Fault) : String :=
  match f.kind with
  | .interrupt => "interrupted: " ++ f.detail
  | .internal => "internal invariant violated: " ++ f.detail
  | _ => f.detail

end Fault

/-- The name by which programs know the kind of a fault. -/
def Fault.Kind.text : Fault.Kind → String
  | noMethod => "NoMethodError"
  | type => "TypeError"
  | argument => "ArgumentError"
  | name => "NameError"
  | interrupt => "Interrupt"
  | internal => "InternalError"

end LateBinding
