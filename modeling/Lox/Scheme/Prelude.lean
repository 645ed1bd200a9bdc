/-
What every Scheme program starts with.

Scheme has no classes, no `+` that joins texts and no printed form for numbers without
exponents, so each program brings a few procedures for those.  Their names have no
colon, while every name taken from a Lox program is prefixed with `lox:`; the two kinds
never meet.
-/

namespace Lox.Scheme

/-- The text in front of every program. -/
def prelude : String :=
  r#"(define lox-names (make-weak-key-hash-table))
(define (lox-named name proc)
  (hashq-set! lox-names proc name)
  proc)
(define (lox-class name super methods)
  (vector 'lox-class name super methods))
(define (lox-class? v)
  (and (vector? v) (eq? (vector-ref v 0) 'lox-class)))
(define (lox-instance class)
  (vector 'lox-instance class '()))
(define (lox-instance? v)
  (and (vector? v) (eq? (vector-ref v 0) 'lox-instance)))
(define (lox-find-method class name)
  (if (lox-class? class)
      (let ((method (assq name (vector-ref class 3))))
        (if method
            (cdr method)
            (lox-find-method (vector-ref class 2) name)))
      #f))
(define (lox-get object name)
  (if (not (lox-instance? object))
      (throw 'lox-runtime-error "Only instances have properties."))
  (let ((field (assq name (vector-ref object 2))))
    (if field
        (cdr field)
        (let ((method (lox-find-method (vector-ref object 1) name)))
          (if method
              (method object)
              (throw 'lox-runtime-error "Undefined property." name))))))
(define (lox-set! object name value)
  (if (not (lox-instance? object))
      (throw 'lox-runtime-error "Only instances have fields."))
  (let ((field (assq name (vector-ref object 2))))
    (if field
        (set-cdr! field value)
        (vector-set! object 2 (cons (cons name value) (vector-ref object 2))))
    value))
(define (lox-super super this name)
  (let ((method (lox-find-method super name)))
    (if method
        (method this)
        (throw 'lox-runtime-error "Undefined property." name))))
(define (lox-call callee . args)
  (if (lox-class? callee)
      (let ((instance (lox-instance callee))
            (init (lox-find-method callee 'init)))
        (if init (apply (init instance) args))
        instance)
      (apply callee args)))
(define (lox-equal? l r)
  (if (and (string? l) (string? r))
      (string=? l r)
      (eqv? l r)))
(define (lox-place-point digits point)
  (let* ((len (string-length digits))
         (padded (cond ((<= point 0)
                        (string-append "0" (make-string (- point) #\0) digits))
                       ((> point len)
                        (string-append digits (make-string (- point len) #\0)))
                       (else digits)))
         (split (if (<= point 0) 1 point))
         (whole (substring padded 0 split))
         (fraction (string-trim-right (substring padded split) #\0)))
    (if (string-null? fraction)
        whole
        (string-append whole "." fraction))))
(define (lox-number->string v)
  (cond ((nan? v) "NaN")
        ((inf? v) (if (> v 0) "inf" "-inf"))
        ((eqv? v -0.0) "-0")
        ((< v 0) (string-append "-" (lox-number->string (- v))))
        (else
         (let* ((text (number->string v))
                (e (string-index text #\e))
                (mantissa (if e (substring text 0 e) text))
                (exponent (if e (string->number (substring text (+ e 1))) 0))
                (dot (string-index mantissa #\.))
                (whole (if dot (substring mantissa 0 dot) mantissa)))
           (lox-place-point
            (string-append whole (if dot (substring mantissa (+ dot 1)) ""))
            (+ (string-length whole) exponent))))))
(define (lox-stringify v)
  (cond ((eq? v #nil) "nil")
        ((eq? v #t) "true")
        ((eq? v #f) "false")
        ((number? v) (lox-number->string v))
        ((lox-class? v) (vector-ref v 1))
        ((lox-instance? v)
         (string-append (vector-ref (vector-ref v 1) 1) " instance"))
        ((procedure? v) (or (hashq-ref lox-names v) "<fn>"))
        (else (format #f "~a" v))))
(define (lox-print v)
  (display (lox-stringify v))
  (newline))
(define (add l r)
  (cond ((and (number? l) (number? r))
         (+ l r))
        ((or (string? l) (string? r))
         (string-append (lox-stringify l) (lox-stringify r)))
        (else (throw 'lox-runtime-error "Operands must be two numbers or at least one string."))))
(define (lox-div l r)
  (if (and (number? r) (zero? r))
      (throw 'lox-runtime-error "Division by zero.")
      (/ l r)))
(define lox:clock
  (lox-named "<native fn>"
             (lambda ()
               (exact->inexact (/ (get-internal-real-time) internal-time-units-per-second)))))
"#

end Lox.Scheme
