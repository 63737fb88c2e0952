namespace Yella

/-- `yella_rc` -/
inductive Rc where
  | noError
  | tooBig
  | invalidFormat
  | logicError
  | doesNotExist
  | readError
  | fileSystemError
  | noPermission
  | alreadyExists
  | writeError
  | timedOut
  deriving DecidableEq, Repr

end Yella
