/-!
# The prelude

Expressions that every script can use and that are derived from others by rules. Errors in their
expansions are reported at positions in this text.
-/

namespace MiniScheme.Session

def preludeLines : List String :=
  [
    "; Derived expression types, compiled into the global scope at start-up.",
    "; Expansion is not hygienic, so helper names start with `%`.",
    "",
    "(define-syntax let",
    "  (syntax-rules ()",
    "    ((_ ((name value) ...) body1 body2 ...)",
    "     ((lambda (name ...) body1 body2 ...) value ...))",
    "    ((_ tag ((name value) ...) body1 body2 ...)",
    "     ((letrec ((tag (lambda (name ...) body1 body2 ...))) tag) value ...))))",
    "",
    "(define-syntax let*",
    "  (syntax-rules ()",
    "    ((_ () body1 body2 ...)",
    "     (let () body1 body2 ...))",
    "    ((_ ((name1 value1) (name2 value2) ...) body1 body2 ...)",
    "     (let ((name1 value1))",
    "       (let* ((name2 value2) ...) body1 body2 ...)))))",
    "",
    "(define-syntax letrec*",
    "  (syntax-rules ()",
    "    ((_ ((name init) ...) body1 body2 ...)",
    "     (let () (define name init) ... (let () body1 body2 ...)))))",
    "",
    "(define-syntax letrec",
    "  (syntax-rules ()",
    "    ((_ bindings body1 body2 ...)",
    "     (letrec* bindings body1 body2 ...))))",
    "",
    "(define-syntax and",
    "  (syntax-rules ()",
    "    ((_) #t)",
    "    ((_ test) test)",
    "    ((_ test1 test2 ...) (if test1 (and test2 ...) #f))))",
    "",
    "(define-syntax or",
    "  (syntax-rules ()",
    "    ((_) #f)",
    "    ((_ test) test)",
    "    ((_ test1 test2 ...)",
    "     (let ((%or test1)) (if %or %or (or test2 ...))))))",
    "",
    "(define-syntax cond",
    "  (syntax-rules (else =>)",
    "    ((_ (else result1 result2 ...))",
    "     (begin result1 result2 ...))",
    "    ((_ (test => receiver))",
    "     (let ((%cond test)) (if %cond (receiver %cond))))",
    "    ((_ (test => receiver) clause1 clause2 ...)",
    "     (let ((%cond test)) (if %cond (receiver %cond) (cond clause1 clause2 ...))))",
    "    ((_ (test))",
    "     test)",
    "    ((_ (test) clause1 clause2 ...)",
    "     (let ((%cond test)) (if %cond %cond (cond clause1 clause2 ...))))",
    "    ((_ (test result1 result2 ...))",
    "     (if test (begin result1 result2 ...)))",
    "    ((_ (test result1 result2 ...) clause1 clause2 ...)",
    "     (if test (begin result1 result2 ...) (cond clause1 clause2 ...)))))",
    "",
    "(define-syntax case",
    "  (syntax-rules (else)",
    "    ((_ (key ...) clause1 clause2 ...)",
    "     (let ((%case (key ...))) (case %case clause1 clause2 ...)))",
    "    ((_ key (else result1 result2 ...))",
    "     (begin result1 result2 ...))",
    "    ((_ key ((atom ...) result1 result2 ...))",
    "     (if (memv key '(atom ...)) (begin result1 result2 ...)))",
    "    ((_ key ((atom ...) result1 result2 ...) clause1 clause2 ...)",
    "     (if (memv key '(atom ...)) (begin result1 result2 ...) (case key clause1 clause2 ...)))))",
    "",
    "(define-syntax when",
    "  (syntax-rules ()",
    "    ((_ test body1 body2 ...)",
    "     (if test (begin body1 body2 ...)))))",
    "",
    "(define-syntax unless",
    "  (syntax-rules ()",
    "    ((_ test body1 body2 ...)",
    "     (if test (begin) (begin body1 body2 ...)))))",
    "",
    "(define-syntax do",
    "  (syntax-rules ()",
    "    ((_ ((name init step ...) ...) (test result ...) command ...)",
    "     (let %do ((name init) ...)",
    "       (if test",
    "           (begin (begin) result ...)",
    "           (begin command ... (%do (do \"step\" name step ...) ...)))))",
    "    ((_ \"step\" name) name)",
    "    ((_ \"step\" name step) step)))"
  ]

def prelude : String :=
  preludeLines.foldl (fun text line => text ++ line ++ "\n") ""

end MiniScheme.Session
